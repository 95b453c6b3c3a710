import RpnCalculator.Proofs.Machine.Delivery

/-!
# Words do not look below their arguments

A word addresses the stack from its top.  So what it does is not changed by values that lie
beneath the ones that it reaches, and these values stay where they are.  With `Machine.onto`
for more values beneath a stack, a word that succeeds comes to the same on top of them
(`carries_outcomeOf`), and so does a whole run in which every word succeeds (`run_onto`).

## Why failures are left out

A word that fails does not do the same with more values beneath: `swap` fails on a single value,
and on top of another one it exchanges the two.  Each check of a height is of the form that the
stack is high enough, so it lets through more when the stack is higher.  This is what is
carried from one stack to the other: results, and not faults (`Carries`).

## Where the height enters

`dropn`, `dupn`, `roll` and `rolld` compare their count with the height, and what they do
afterwards is to take a number of values from the front of a list.  That agrees on both stacks
because the count was found to be no larger than what is above (`le_of_levels`).

`clear` is the exception.  It is the only word that takes off as much as there is.
-/

namespace RpnCalculator

/-! ## What is carried over -/

/-- Whatever is the result of the first computation is, up to a change, the result of the
second. -/
def Carries {ε α β : Type} (f : α → β) (r : Except ε α) (r' : Except ε β) : Prop :=
  ∀ a, r = .ok a → r' = .ok (f a)

namespace Carries

variable {ε α β γ δ : Type} {f : α → β} {r : Except ε α} {r' : Except ε β}

theorem of_eq {a : α} {b : β} (h : b = f a) : Carries f (.ok a : Except ε α) (.ok b) := by
  rintro _ ⟨⟩
  rw [h]

theorem ok {a : α} : Carries f (.ok a : Except ε α) (.ok (f a)) := of_eq rfl

theorem error {e : ε} : Carries f (.error e) r' := nofun

theorem refl (r : Except ε α) : Carries id r r := fun _ h => h

theorem bind {k : γ → δ} {g : α → Except ε γ} {g' : β → Except ε δ} (h : Carries f r r')
    (hg : ∀ a, r = .ok a → Carries k (g a) (g' (f a))) : Carries k (r >>= g) (r' >>= g') := by
  cases r with
  | error e => exact error
  | ok a =>
    rw [h a rfl]
    exact hg a rfl

theorem map {k : γ → δ} {g : α → γ} {g' : β → δ} (h : Carries f r r')
    (hg : ∀ a, g' (f a) = k (g a)) : Carries k (r.map g) (r'.map g') := by
  cases r with
  | error e => exact error
  | ok a =>
    rw [h a rfl]
    exact of_eq (hg a)

end Carries

/-! ## Stacks -/

namespace Stack

variable {s : Stack} (t : Stack)

theorem carries_level (n : Nat) : Carries id (s.level n) (Stack.level (s ++ t) n) := by
  intro v hv
  rw [level_eq_ok_iff] at hv
  obtain ⟨hlt, -⟩ := List.getElem?_eq_some_iff.mp hv
  rw [id_eq, level_eq_ok_iff, List.getElem?_append_left hlt, hv]

theorem carries_discard : Carries (· ++ t) s.discard (Stack.discard (s ++ t)) := by
  cases s with
  | nil => exact .error
  | cons v s => exact .ok

theorem carries_swap : Carries (· ++ t) s.swap (Stack.swap (s ++ t)) := by
  match s with
  | [] => exact .error
  | [_] => exact .error
  | v :: w :: s => exact .ok

/-- The value that is moved up lies above those beneath, and so do those that it passes. -/
theorem carries_rollUp (n : Nat) : Carries (· ++ t) (s.rollUp n) (Stack.rollUp n (s ++ t)) := by
  unfold rollUp
  dsimp only
  cases hs : s.drop (max n 1 - 1) with
  | nil => exact .error
  | cons v rest =>
    have hle : max n 1 - 1 ≤ s.length := by
      have := congrArg List.length hs
      simp only [List.length_drop, List.length_cons] at this
      omega
    rw [List.drop_append_of_le_length hle, List.take_append_of_le_length hle, hs,
      List.cons_append]
    dsimp only
    rw [← List.append_assoc, ← List.cons_append]
    exact .ok

theorem carries_rollDown (n : Nat) :
    Carries (· ++ t) (s.rollDown n) (Stack.rollDown n (s ++ t)) := by
  unfold rollDown
  cases s with
  | nil => exact .error
  | cons v rest =>
    dsimp only [List.cons_append]
    by_cases h : max n 1 ≤ (v :: rest).length
    · have hle : max n 1 - 1 ≤ rest.length := by
        rw [List.length_cons] at h
        omega
      have h' : max n 1 ≤ (v :: (rest ++ t)).length := by
        simp only [List.length_cons, List.length_append] at h ⊢
        omega
      rw [if_pos h, if_pos h', List.drop_append_of_le_length hle,
        List.take_append_of_le_length hle, ← List.cons_append, ← List.append_assoc]
      exact .ok
    · rw [if_neg h]
      exact .error

end Stack

namespace Machine

variable {m m' : Machine} (t : Stack)

/-! ## Arguments -/

/-- The machine with more values beneath its stack. -/
def onto (m : Machine) (t : Stack) : Machine := { m with stack := m.stack ++ t }

/-- A computation that fails without a top and looks at nothing below it. -/
structure OnTop {α : Type} (f : Machine → Except Fault α) : Prop where
  fails : ∀ m : Machine, m.stack = [] → ∃ e, f m = .error e
  carries : ∀ (m : Machine) (v : Value) (s t : Stack),
    f { m with stack := v :: s } = f { m with stack := v :: t }

namespace OnTop

variable {α : Type} {f : Machine → Except Fault α}

theorem ne_nil (h : OnTop f) {a : α} (ha : f m = .ok a) : m.stack ≠ [] := by
  intro hs
  obtain ⟨e, he⟩ := h.fails m hs
  rw [he] at ha
  cases ha

theorem onto (h : OnTop f) (m : Machine) : Carries id (f m) (f (m.onto t)) := by
  intro a ha
  obtain ⟨v, s, hs⟩ := List.exists_cons_of_ne_nil (h.ne_nil ha)
  have hm : m = { m with stack := v :: s } := by rw [← hs]
  have honto : m.onto t = { m with stack := v :: (s ++ t) } := by
    rw [Machine.onto, hs, List.cons_append]
  rw [honto, id_eq, h.carries m v (s ++ t) s, ← hm, ha]

end OnTop

theorem onTop_count : OnTop count where
  fails m hm := ⟨.underflow, by simp [count, Stack.level, hm]⟩
  carries m v s t := rfl

theorem onTop_name : OnTop name where
  fails m hm := ⟨.underflow, by simp [name, Stack.level, hm]⟩
  carries m v s t := rfl

theorem onTop_included : OnTop included where
  fails m hm := ⟨.underflow, by simp [included, Stack.level, hm]⟩
  carries m v s t := rfl

theorem onTop_shifted (op : UnaryOperator) : OnTop (shifted op) where
  fails m hm := ⟨.underflow, by simp [shifted, Stack.level, hm]⟩
  carries m v s t := rfl

theorem onTop_unaryResult (w : UnaryWord) : OnTop (unaryResult w) where
  fails m hm := ⟨.underflow, by simp [unaryResult, hm]⟩
  carries m v s t := rfl

/-- A count that is within the height is within a larger one. -/
theorem carries_levels (least : Nat) (m : Machine) :
    Carries id (m.levels least) ((m.onto t).levels least) := by
  intro n hn
  unfold levels at hn ⊢
  cases hcount : m.count with
  | error f =>
    rw [hcount] at hn
    cases hn
  | ok k =>
    rw [hcount] at hn
    rw [onTop_count.onto t m k hcount]
    dsimp only [id_eq] at hn ⊢
    split at hn
    · cases hn
    · rename_i hle
      cases hn
      rw [if_neg]
      rw [onto, List.length_append]
      omega

theorem ne_nil_of_levels {least n : Nat} (h : m.levels least = .ok n) : m.stack ≠ [] := by
  unfold levels at h
  cases hcount : m.count with
  | error f =>
    rw [hcount] at h
    cases h
  | ok k => exact onTop_count.ne_nil hcount

/-- An operation on two values has two values to work on. -/
theorem exists_of_binaryResult {op : BinaryOperator} {v : Value}
    (h : binaryResult op m = .ok v) : ∃ r l rest, m.stack = r :: l :: rest := by
  unfold binaryResult at h
  split at h
  · rename_i r l rest hs
    exact ⟨r, l, rest, hs⟩
  · cases h

theorem carries_binaryResult (op : BinaryOperator) (m : Machine) :
    Carries id (binaryResult op m) (binaryResult op (m.onto t)) := by
  unfold binaryResult onto
  match m.stack with
  | [] => exact .error
  | [_] => exact .error
  | r :: l :: rest => exact fun v hv => hv

/-! ## Words -/

theorem withStack_onto (m : Machine) (s : Stack) :
    (m.onto t).withStack (s ++ t) = (m.withStack s).onto t := rfl

/-- Rearranging a stack, the values beneath which stay in place. -/
theorem Carries.withStack {r r' : Except Fault Stack} (h : Carries (· ++ t) r r')
    (m : Machine) : Carries (·.onto t) (r.map m.withStack) (r'.map (m.onto t).withStack) :=
  h.map fun s => withStack_onto t m s

/-- A result in the place of an argument that was looked at. -/
theorem withStack_put_onto (hm : m.stack ≠ []) (v : Value) :
    (m.onto t).withStack (Stack.put v (m.onto t).stack) =
      (m.withStack (m.stack.put v)).onto t := by
  obtain ⟨u, s, hs⟩ := List.exists_cons_of_ne_nil hm
  simp only [onto, withStack, hs, List.cons_append, Stack.put]

theorem tail_onto (hm : m.stack ≠ []) : (m.onto t).stack.tail = m.stack.tail ++ t :=
  List.tail_append_of_ne_nil hm

theorem reconfigured_onto (hm : m.stack ≠ []) (display : Display) :
    (m.onto t).reconfigured display = (m.reconfigured display).onto t := by
  rw [reconfigured, tail_onto t hm]
  rfl

/-- **What an action does does not depend on what lies beneath its arguments.** -/
theorem carries_outcome {a : Action} (ha : a ≠ .clear) (m : Machine) :
    Carries (·.onto t) (outcome a m) (outcome a (m.onto t)) := by
  cases a with
  | clear => exact absurd rfl ha
  | setBase | setAngle | setComplex | banner | quitReminder => exact .ok
  | drop => exact Carries.withStack t (Stack.carries_discard t) m
  | swap => exact Carries.withStack t (Stack.carries_swap t) m
  | rotate => exact Carries.withStack t (Stack.carries_rollUp t 3) m
  | setFloat float =>
    refine (onTop_count.onto t m).bind fun decimals hcount => ?_
    dsimp only [id_eq]
    split
    · exact .error
    · exact .of_eq (reconfigured_onto t (onTop_count.ne_nil hcount) _)
  | setWordSize =>
    refine (onTop_count.onto t m).bind fun wordSize hcount => ?_
    dsimp only [id_eq]
    split
    · exact .of_eq (reconfigured_onto t (onTop_count.ne_nil hcount) _)
    · exact .error
  | dropCount =>
    refine (carries_levels t 0 m).bind fun n hn => ?_
    have hle : n + 1 ≤ m.stack.length := by
      have := (le_of_levels hn).2
      have := List.length_pos_iff.mpr (ne_nil_of_levels hn)
      rw [List.length_tail] at *
      omega
    refine .of_eq ?_
    rw [← withStack_onto, onto, id_eq, List.drop_append_of_le_length hle]
  | duplicate =>
    refine (Stack.carries_level t 0).bind fun v _ => .of_eq ?_
    rfl
  | duplicateCount =>
    refine (carries_levels t 0 m).bind fun n hn => .of_eq ?_
    rw [← withStack_onto, tail_onto t (ne_nil_of_levels hn), id_eq,
      List.take_append_of_le_length (le_of_levels hn).2, List.append_assoc]
  | rollUp =>
    refine (carries_levels t 1 m).bind fun n hn => ?_
    rw [tail_onto t (ne_nil_of_levels hn)]
    exact Carries.withStack t (Stack.carries_rollUp t n) m
  | rollDown =>
    refine (carries_levels t 1 m).bind fun n hn => ?_
    rw [tail_onto t (ne_nil_of_levels hn)]
    exact Carries.withStack t (Stack.carries_rollDown t n) m
  | includeSource =>
    refine (onTop_included.onto t m).bind fun source hsource => .of_eq ?_
    rw [tail_onto t (onTop_included.ne_nil hsource)]
    rfl
  | store =>
    refine (onTop_name.onto t m).bind fun name _ => ?_
    refine (Stack.carries_level t 1).bind fun v hv => .of_eq ?_
    obtain ⟨top, rest, hs⟩ := Stack.eq_of_level_one hv
    simp only [onto, hs, List.cons_append, List.drop_succ_cons, List.drop_zero, id_eq]
  | purge =>
    refine (onTop_name.onto t m).bind fun name hname => .of_eq ?_
    rw [tail_onto t (onTop_name.ne_nil hname)]
    rfl
  | writeObject =>
    refine (onTop_name.onto t m).bind fun path hpath => ?_
    refine (Stack.carries_level t 1).bind fun v _ => ?_
    refine (Carries.refl _).bind fun disk _ => .of_eq ?_
    rw [tail_onto t (onTop_name.ne_nil hpath)]
    rfl
  | readObject =>
    refine (onTop_name.onto t m).bind fun path hpath => ?_
    refine (Carries.refl _).bind fun v _ => .of_eq ?_
    exact withStack_put_onto t (onTop_name.ne_nil hpath) v
  | shiftLeft =>
    refine (onTop_shifted .shiftLeft |>.onto t m).bind fun v hv => .of_eq ?_
    exact withStack_put_onto t ((onTop_shifted _).ne_nil hv) v
  | shiftRight =>
    refine (onTop_shifted .shiftRight |>.onto t m).bind fun v hv => .of_eq ?_
    exact withStack_put_onto t ((onTop_shifted _).ne_nil hv) v

/-- The word `clear` is the only one that clears the stack. -/
theorem ne_clear_of_ofWord? {word : String} {a : Action} (hword : word ≠ "clear")
    (h : Builtin.ofWord? word = some (.action a)) : a ≠ .clear := by
  have hall : ∀ e ∈ Builtin.actionWords, e.2 = .clear → e.1 = "clear" := by decide
  rintro rfl
  exact hword (hall _ (Builtin.mem_actionWords_of_ofWord? h) rfl)

/-- What a literal or a variable pushes comes to lie on top. -/
theorem performOther_onto (m : Machine) (word : String) :
    (m.onto t).performOther word = (m.performOther word).onto t := by
  have hpushed : (m.onto t).pushed? word = m.pushed? word := rfl
  rw [performOther_eq, performOther_eq, hpushed]
  cases m.pushed? word <;> rfl

/-- **No word but `clear` looks below its arguments.** -/
theorem carries_outcomeOf {word : String} (hword : word ≠ "clear") (m : Machine) :
    Carries (·.onto t) (outcomeOf word m) (outcomeOf word (m.onto t)) := by
  unfold outcomeOf
  by_cases hempty : word = ""
  · rw [if_pos hempty, if_pos hempty]
    exact carries_outcome t (by decide) m
  rw [if_neg hempty, if_neg hempty]
  cases hb : Builtin.ofWord? word with
  | none => exact .of_eq (performOther_onto t m word)
  | some b =>
    cases b with
    | binary op =>
      refine (carries_binaryResult t op m).bind fun v hv => .of_eq ?_
      obtain ⟨r, l, rest, hs⟩ := exists_of_binaryResult hv
      simp only [onto, withStack, hs, List.cons_append, List.tail_cons, Stack.put, id_eq]
    | unary w =>
      refine ((onTop_unaryResult w).onto t m).bind fun v hv => .of_eq ?_
      exact withStack_put_onto t ((onTop_unaryResult w).ne_nil hv) v
    | action a => exact carries_outcome t (ne_clear_of_ofWord? hword hb) m

/-! ## Runs -/

/-- A turn in which no word fails. -/
theorem advance_onto {turn : Turn} (h : m.advance = turn) (hclear : m.next? ≠ some "clear")
    (hfaults : turn.machine.faults = m.faults) :
    (m.onto t).advance =
      match turn with
      | .ended status m' => .ended status (m'.onto t)
      | .running m' => .running (m'.onto t) := by
  rw [advance_eq_iff]
  cases advance_eq_iff.mp h with
  | nothing hm => exact .nothing hm
  | noWord hm hnext => exact .noWord hm hnext
  | quit hm hnext => exact .quit hm hnext
  | @word word rest hm hnext hquit =>
    have hword : word ≠ "clear" := by
      rintro rfl
      exact hclear (next?_of_next? hm hnext)
    let m₁ : Machine := { m with sources := rest }
    obtain ⟨m', hout⟩ : ∃ m', outcomeOf word m₁ = .ok m' := exists_of_faults_step hfaults
    have hstep : (m₁.step word).onto t = (m₁.onto t).step word := by
      rw [step_eq, step_eq, hout, carries_outcomeOf t hword m₁ m' hout]
    dsimp only
    rw [hstep]
    exact .word hm hnext hquit

/-- **Values beneath the stack stay there, and change nothing else.**  A run in which no word
fails and `clear` is not performed, be it pending from the start or in a script or program that
is included on the way, ends in the same way with any values beneath the stack that it
began with: with the same values above them, and in everything else with the same machine. -/
theorem run_onto {bound : Nat} {m m' : Machine} {status : Status} (t : List Value)
    (hrun : m.run bound = some (status, m')) (hfaults : m'.faults = m.faults)
    (hclear : "clear" ∉ m.delivered bound) :
    Machine.run bound { m with stack := m.stack ++ t } =
      some (status, { m' with stack := m'.stack ++ t }) := by
  show (m.onto t).run bound = some (status, m'.onto t)
  induction bound generalizing m with
  | zero => cases hrun
  | succ bound ih =>
    rw [delivered, List.mem_append, not_or] at hclear
    have hnext : m.next? ≠ some "clear" := by
      intro hnext
      exact hclear.1 (by simp [hnext])
    have hfirst := m.faults_advance
    unfold run at hrun ⊢
    cases hturn : m.advance with
    | ended status₁ m₁ =>
      rw [hturn] at hrun hfirst
      cases hrun
      rw [advance_onto t hturn hnext hfaults]
    | running m₁ =>
      rw [hturn] at hrun hfirst hclear
      -- the faults of the first turn lie between those before the run and those after it
      have hrest : m₁.faults <+: m'.faults := faults_run hrun
      have hnone : m₁.faults = m.faults := by
        rw [hfaults] at hrest
        exact hrest.eq_of_length_le hfirst.length_le
      rw [advance_onto t hturn hnext hnone]
      exact ih hrun (hfaults.trans hnone.symm) hclear.2

/-- Two values are copied by a program, and one of the copies is brought to the top by the word
after it; two more values lie beneath. -/
theorem run_onto_program :
    "clear" ∉ delivered 4
        { stack := [.program "dupn", .integer 2, .integer 5, .integer 7]
          sources := [.words ["eval", "rot"]] } ∧
      run 4
          { stack :=
              [.program "dupn", .integer 2, .integer 5, .integer 7] ++ [.string "a", .integer 9]
            sources := [.words ["eval", "rot"]] } =
        some (.exhausted,
          { stack :=
              [.integer 5, .integer 5, .integer 7, .integer 7] ++ [.string "a", .integer 9] }) := by
  have hclear : "clear" ∉ delivered 4
      { stack := [.program "dupn", .integer 2, .integer 5, .integer 7]
        sources := [.words ["eval", "rot"]] } := by decide +kernel
  have hrun : run 4
      { stack := [.program "dupn", .integer 2, .integer 5, .integer 7]
        sources := [.words ["eval", "rot"]] } =
      some (.exhausted, { stack := [.integer 5, .integer 5, .integer 7, .integer 7] }) := rfl
  have hframed := run_onto [.string "a", .integer 9] hrun rfl hclear
  exact ⟨hclear, hframed⟩

end Machine
end RpnCalculator
