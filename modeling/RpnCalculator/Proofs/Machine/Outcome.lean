import RpnCalculator.Machine
import RpnCalculator.Proofs.Machine.Writing

/-!
# What words come to

`Machine.perform` carries out a word bit by bit.  This file says what each word comes to as
a whole: `Machine.outcomeOf word` is a function from machines to machines that has a value or
a fault, and `perform_eq_attempt` states that to perform a word is to attempt its outcome.

The outcome of a word says nothing of the machine when it fails, because there is nothing to
say.  That is the point of the equation: in the middle of an action there are looks, and one
that fails there would leave a machine that is neither the old one nor the new.

## Where a fault could come too late

Five actions look at something, or do something that can fail, after their first change.

* `dupn` looks up every value that it copies, on a stack that has already lost its count.
  The value is at the same level each time, because the copies push it down as fast as the
  loop moves up (`times_copy`).
* `roll` and `rolld` rearrange a stack that has lost its count, which is one value less than
  what was counted (`length_tail_of_levels`).
* `sto` takes its value off without asking whether there is one.
* `write` changes the disk before it takes its name off, and the disk has stages of its own
  (`Disk.writeObject_eq_attempt`).
-/

namespace RpnCalculator

/-! ## Levels -/

namespace Stack

theorem level_eq_ok_iff {s : Stack} {n : Nat} {v : Value} :
    s.level n = .ok v ↔ s[n]? = some v := by
  unfold level
  cases s[n]? with
  | some w => simp
  | none => cases s.isEmpty <;> simp

/-- A stack with a second level has a first one. -/
theorem eq_of_level_one {s : Stack} {v : Value} (h : s.level 1 = .ok v) :
    ∃ top rest, s = top :: v :: rest := by
  rw [level_eq_ok_iff] at h
  match s with
  | [] => simp at h
  | [_] => simp at h
  | top :: w :: rest =>
    simp only [List.getElem?_cons_succ, List.getElem?_cons_zero, Option.some.injEq] at h
    exact ⟨top, rest, by rw [h]⟩

/-- Moving up a level that exists does not fail. -/
theorem exists_rollUp {n : Nat} {s : Stack} (hn : 1 ≤ n) (h : n ≤ s.length) :
    ∃ t, s.rollUp n = .ok t :=
  rollUp_eq_ok_iff.mpr (by omega)

/-- Moving down to a level that exists does not fail. -/
theorem exists_rollDown {n : Nat} {s : Stack} (hn : 1 ≤ n) (h : n ≤ s.length) :
    ∃ t, s.rollDown n = .ok t := by
  cases s with
  | nil =>
    rw [List.length_nil] at h
    omega
  | cons v rest =>
    refine ⟨_, if_pos ?_⟩
    omega

end Stack

namespace Machine

/-! ## Outcomes -/

/-- The machine with another stack. -/
def withStack (m : Machine) (s : Stack) : Machine := { m with stack := s }

/-- The machine with other settings, and without the top that chose them. -/
def reconfigured (m : Machine) (display : Display) : Machine :=
  { m with stack := m.stack.tail, display }

/-- What an action comes to. -/
def outcome : Action → Machine → Except Fault Machine
  | .setBase base, m => .ok { m with display := { m.display with base } }
  | .setAngle angle, m => .ok { m with display := { m.display with angle } }
  | .setComplex complex, m => .ok { m with display := { m.display with complex } }
  | .setFloat float, m => do
    let decimals ← m.count
    if Display.maxDecimals < decimals then .error (.domain .tooManyDecimals)
    else .ok (m.reconfigured { m.display with float, decimals })
  | .setWordSize, m => do
    let wordSize ← m.count
    if 1 ≤ wordSize ∧ wordSize ≤ Display.maxWordSize then
      .ok (m.reconfigured { m.display with wordSize })
    else .error (.domain .wordSizeOutOfRange)
  | .clear, m => .ok (m.withStack [])
  | .drop, m => m.stack.discard.map m.withStack
  | .dropCount, m => do
    let n ← m.levels 0
    .ok (m.withStack (m.stack.drop (n + 1)))
  | .duplicate, m => do
    let v ← m.stack.level 0
    .ok (m.push v)
  | .duplicateCount, m => do
    let n ← m.levels 0
    .ok (m.withStack (m.stack.tail.take n ++ m.stack.tail))
  | .swap, m => m.stack.swap.map m.withStack
  | .rotate, m => m.stack.rotate.map m.withStack
  | .rollUp, m => do
    let n ← m.levels 1
    (Stack.rollUp n m.stack.tail).map m.withStack
  | .rollDown, m => do
    let n ← m.levels 1
    (Stack.rollDown n m.stack.tail).map m.withStack
  | .includeSource, m => do
    let source ← m.included
    .ok { m with stack := m.stack.tail, sources := source :: m.sources }
  | .banner, m => .ok { m with messages := m.messages ++ [.notice .banner] }
  | .quitReminder, m => .ok { m with messages := m.messages ++ [.notice .quitReminder] }
  | .store, m => do
    let name ← m.name
    let v ← m.stack.level 1
    .ok { m with
      stack := m.stack.drop 2
      bindings := Directory.insert name v m.bindings }
  | .purge, m => do
    let name ← m.name
    .ok { m with stack := m.stack.tail, bindings := Directory.erase name m.bindings }
  | .writeObject, m => do
    let path ← m.name
    let v ← m.stack.level 1
    let disk ← (m.disk.withObject path v).mapError .storage
    .ok { m with stack := m.stack.tail, disk }
  | .readObject, m => do
    let path ← m.name
    let v ← stored path m
    .ok (m.withStack (m.stack.put v))
  | .shiftLeft, m => do
    let v ← shifted .shiftLeft m
    .ok (m.withStack (m.stack.put v))
  | .shiftRight, m => do
    let v ← shifted .shiftRight m
    .ok (m.withStack (m.stack.put v))

/-- What a builtin word comes to. -/
def builtinOutcome : Builtin → Machine → Except Fault Machine
  | .binary op, m => do
    let v ← binaryResult op m
    .ok (m.withStack (Stack.put v m.stack.tail))
  | .unary w, m => do
    let v ← unaryResult w m
    .ok (m.withStack (m.stack.put v))
  | .action a, m => outcome a m

/-- What a word comes to. -/
def outcomeOf (word : String) (m : Machine) : Except Fault Machine :=
  if word = "" then outcome .duplicate m
  else
    match Builtin.ofWord? word with
    | some b => builtinOutcome b m
    | none => .ok (m.performOther word)

/-- What a word that is no builtin pushes: a literal, or else a variable. -/
def pushed? (m : Machine) (word : String) : Option Value :=
  match Literal.parse m.display word with
  | .ok v => some v
  | .error _ => Directory.find? word m.bindings

theorem performOther_eq (m : Machine) (word : String) :
    m.performOther word = (m.pushed? word).elim m m.push := by
  unfold performOther pushed?
  cases Literal.parse m.display word with
  | ok v => rfl
  | error f => cases Directory.find? word m.bindings <;> rfl

/-! ## Counts -/

/-- A count that was accepted is within its bounds. -/
theorem le_of_levels {m : Machine} {least n : Nat} (h : m.levels least = .ok n) :
    least ≤ n ∧ n ≤ m.stack.tail.length := by
  unfold levels at h
  split at h
  · cases h
  · dsimp only at h
    split at h
    · cases h
    · rename_i hn
      cases h
      rw [List.length_tail]
      exact ⟨Nat.le_max_right .., by omega⟩

/-! ## Loops -/

theorem discard_eq : discard = .change fun m => m.withStack m.stack.tail := rfl

/-- Taking off several values takes them off together. -/
theorem times_discard (n : Nat) :
    discard.times n = .change fun m => m.withStack (m.stack.drop n) := by
  induction n with
  | zero => rfl
  | succ n ih =>
    funext m
    rw [Effect.times_succ, ih, discard_eq, Effect.change_bind_apply, Effect.change_apply,
      Effect.change_apply]
    simp only [withStack, List.drop_tail]

/-- Copy the value at a level. -/
def copy (level : Nat) : Procedure Unit := do
  let v ← .look (·.stack.level level)
  .change (·.push v)

/-- **The copies are found.**  When `j` of `n` values are still to be copied, the others lie
on top of the stack that the loop began with, and the next one has come to lie at level
`n - 1`. -/
theorem times_copy {n j : Nat} {s : Stack} (hn : n ≤ s.length) (hj : j ≤ n) (m : Machine) :
    (copy (n - 1)).times j (m.withStack ((s.take n).drop j ++ s)) =
      (.ok (), m.withStack (s.take n ++ s)) := by
  induction j with
  | zero => simp
  | succ j ih =>
    have hlt : j < (s.take n).length := by
      rw [List.length_take]
      omega
    have hlevel : Stack.level ((s.take n).drop (j + 1) ++ s) (n - 1) = .ok (s.take n)[j] := by
      rw [Stack.level_eq_ok_iff, List.getElem?_append_right (by simp; omega),
        List.getElem?_eq_some_iff]
      refine ⟨by simp; omega, ?_⟩
      rw [List.getElem_take]
      congr 1
      simp only [List.length_drop, List.length_take]
      omega
    have hpush : (m.withStack ((s.take n).drop (j + 1) ++ s)).push (s.take n)[j] =
        m.withStack ((s.take n).drop j ++ s) := by
      rw [List.drop_eq_getElem_cons hlt]
      rfl
    rw [Effect.times_succ, Effect.bind_apply, copy, Effect.look_bind_apply]
    have hstack : (m.withStack ((s.take n).drop (j + 1) ++ s)).stack =
        (s.take n).drop (j + 1) ++ s := rfl
    rw [hstack, hlevel]
    simp only [Effect.change_apply, hpush]
    exact ih (by omega)

/-! ## Actions -/

theorem rearrange_eq_attempt (f : Stack → Except Fault Stack) :
    rearrange f = .attempt fun m => (f m.stack).map m.withStack := by
  unfold rearrange
  rw [Effect.within_attempt _ _ _ _ fun _ => rfl]
  congr 1
  funext m
  cases f m.stack <;> rfl

/-- Rearranging what is left below a count. -/
theorem discard_rearrange {f : Stack → Except Fault Stack} {m : Machine} {s : Stack}
    (h : f m.stack.tail = .ok s) :
    (discard >>= fun _ => rearrange f) m =
      Effect.attempt (fun m => (f m.stack.tail).map m.withStack) m := by
  rw [discard_eq, rearrange_eq_attempt]
  refine Effect.change_bind_attempt_apply (t := m.withStack s) ?_
  simp only [withStack, h, Except.map]

/-- **An action is carried out as a whole or not at all.** -/
theorem act_eq_attempt (a : Action) : act a = .attempt (outcome a) := by
  cases a with
  | setBase | setAngle | setComplex | clear | banner | quitReminder => rfl
  | drop => exact rearrange_eq_attempt _
  | swap => exact rearrange_eq_attempt _
  | rotate => exact rearrange_eq_attempt _
  | setFloat float =>
    refine Effect.look_bind_eq_attempt fun m decimals _ => ?_
    by_cases h : Display.maxDecimals < decimals
    · simp only [if_pos h]
      rfl
    · simp only [if_neg h]
      rfl
  | setWordSize =>
    refine Effect.look_bind_eq_attempt fun m wordSize _ => ?_
    by_cases h : 1 ≤ wordSize ∧ wordSize ≤ Display.maxWordSize
    · simp only [if_pos h]
      rfl
    · simp only [if_neg h]
      rfl
  | dropCount =>
    refine Effect.look_bind_eq_attempt fun m n _ => ?_
    rw [times_discard]
    rfl
  | duplicate => exact Effect.look_bind_eq_attempt fun m v _ => rfl
  | duplicateCount =>
    refine Effect.look_bind_eq_attempt fun m n hn => ?_
    have hlen := (le_of_levels hn).2
    have hloop := times_copy hlen (Nat.le_refl n) m
    rw [List.drop_eq_nil_of_le (by simp), List.nil_append] at hloop
    rw [discard_eq, Effect.change_bind_apply]
    exact hloop
  | rollUp =>
    refine Effect.look_bind_eq_attempt fun m n hn => ?_
    obtain ⟨hpos, hlen⟩ := le_of_levels hn
    obtain ⟨s, hs⟩ := Stack.exists_rollUp hpos hlen
    exact discard_rearrange hs
  | rollDown =>
    refine Effect.look_bind_eq_attempt fun m n hn => ?_
    obtain ⟨hpos, hlen⟩ := le_of_levels hn
    obtain ⟨s, hs⟩ := Stack.exists_rollDown hpos hlen
    exact discard_rearrange hs
  | includeSource => exact Effect.look_bind_eq_attempt fun m source _ => rfl
  | store =>
    refine Effect.look_bind_eq_attempt fun m name _ => ?_
    refine Effect.look_bind_attempt_apply fun v hv => ?_
    obtain ⟨top, rest, hs⟩ := Stack.eq_of_level_one hv
    rw [discard_eq, Effect.change_bind_apply, Effect.bind_apply]
    simp only [pop, withStack, Effect.attempt, hs, List.tail_cons, List.head?_cons,
      Effect.change_apply, List.drop_succ_cons, List.drop_zero]
  | purge => exact Effect.look_bind_eq_attempt fun m name _ => rfl
  | writeObject =>
    refine Effect.look_bind_eq_attempt fun m path _ => ?_
    refine Effect.look_bind_attempt_apply fun v _ => ?_
    rw [discard_eq, onDisk, Disk.writeObject_eq_attempt,
      Effect.within_attempt _ _ _ _ fun _ => rfl, Effect.attempt_bind_change]
    refine congrFun (congrArg Effect.attempt (funext fun m => ?_)) m
    cases m.disk.withObject path v <;> rfl
  | readObject =>
    refine Effect.look_bind_eq_attempt fun m path _ => ?_
    exact Effect.look_bind_attempt_apply fun v _ => rfl
  | shiftLeft => exact Effect.look_bind_eq_attempt fun m v _ => rfl
  | shiftRight => exact Effect.look_bind_eq_attempt fun m v _ => rfl

/-! ## Words -/

/-- **So is a builtin word.** -/
theorem execute_eq_attempt (b : Builtin) : execute b = .attempt (builtinOutcome b) := by
  cases b with
  | binary op => exact Effect.look_bind_eq_attempt fun m v _ => rfl
  | unary w => exact Effect.look_bind_eq_attempt fun m v _ => rfl
  | action a => exact act_eq_attempt a

/-- **To perform a word is to attempt its outcome.** -/
theorem perform_eq_attempt (word : String) : perform word = .attempt (outcomeOf word) := by
  unfold perform outcomeOf
  by_cases h : word = ""
  · simp only [if_pos h]
    exact act_eq_attempt .duplicate
  · simp only [if_neg h]
    cases Builtin.ofWord? word with
    | some b => exact execute_eq_attempt b
    | none => rfl

/-- What a word does to a machine: its outcome, or one more message. -/
theorem step_eq (m : Machine) (word : String) :
    m.step word =
      match outcomeOf word m with
      | .ok m' => m'
      | .error f => m.report f := by
  rw [step, perform_eq_attempt, Effect.attempt]
  cases outcomeOf word m <;> rfl

/-- A view of machines does not tell apart what a word does to two of them if it does not tell apart
the outcomes, nor the machines with the same message. -/
theorem step_eq_of_outcomeOf {α : Type} {f : Machine → α} {m n : Machine} {word : String}
    (hout : (outcomeOf word m).map f = (outcomeOf word n).map f)
    (hreport : ∀ x, f (m.report x) = f (n.report x)) : f (m.step word) = f (n.step word) := by
  rw [step_eq, step_eq]
  cases hm : outcomeOf word m with
  | ok m' =>
    rw [hm] at hout
    cases hn : outcomeOf word n with
    | ok n' =>
      rw [hn] at hout
      exact Except.ok.inj hout
    | error y =>
      rw [hn] at hout
      cases hout
  | error x =>
    rw [hm] at hout
    cases hn : outcomeOf word n with
    | ok n' =>
      rw [hn] at hout
      cases hout
    | error y =>
      rw [hn] at hout
      cases hout
      exact hreport x

/-- A word that is no builtin is a literal, a variable or nothing. -/
theorem step_other (m : Machine) {word : String} (hne : word ≠ "")
    (hword : word ∉ Builtin.words) : m.step word = m.performOther word := by
  rw [step_eq, outcomeOf, if_neg hne, Builtin.ofWord?_eq_none_iff.mpr hword]

end Machine

end RpnCalculator
