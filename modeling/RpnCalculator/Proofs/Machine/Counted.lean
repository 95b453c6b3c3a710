import Mathlib.Data.List.Rotate
import RpnCalculator.Proofs.Machine.Outcome

/-!
# Words that take a count of levels

Four words take a count off the stack and work on that many levels below it: `dupn`, `dropn`, `roll`
and `rolld`.  They are one word with two parameters, the least number of levels that it works on and
what it does to them (`TakesCount.perform_eq`).  The count lies on the stack that it speaks about,
so the levels to be counted are those of the stack without it.  For that reason the statements here
are about a machine to which a count is added.

## Turns

Bringing a level up and moving the top down are turns of the levels above (`Stack.turned`), by all
places but one and by one place.  Turns of the same levels are added, and a turn by all places is
none (`turned_turned`, `turned_mul`).  That is all there is to the laws of `roll` and `rolld`: each
undoes the other, and `roll` done as often as it has levels undoes itself.
-/

namespace RpnCalculator

namespace Stack

variable {n : Nat} {s : Stack}

/-- The stack with its `n` upper levels turned by `j` places. -/
def turned (j n : Nat) (s : Stack) : Stack := (s.take n).rotate j ++ s.drop n

theorem length_turned (j n : Nat) (s : Stack) : (turned j n s).length = s.length := by
  rw [turned, List.length_append, List.length_rotate, ← List.length_append, List.take_append_drop]

/-- **Turns of the same levels are added.** -/
theorem turned_turned (h : n ≤ s.length) (i j : Nat) :
    turned i n (turned j n s) = turned (j + i) n s := by
  have hlen : ((s.take n).rotate j).length = n := by
    rw [List.length_rotate, List.length_take, Nat.min_eq_left h]
  have htake : (turned j n s).take n = (s.take n).rotate j := List.take_left' hlen
  have hdrop : (turned j n s).drop n = s.drop n := List.drop_left' hlen
  rw [turned, htake, hdrop, List.rotate_rotate]
  rfl

/-- A turn by all places is none. -/
theorem turned_mul (h : n ≤ s.length) (i : Nat) : turned (n * i) n s = s := by
  have hrotate : (s.take n).rotate (n * i) = s.take n := by
    have hlen : (s.take n).length = n := by rw [List.length_take, Nat.min_eq_left h]
    have hmul := List.rotate_length_mul (s.take n) i
    rwa [hlen] at hmul
  rw [turned, hrotate, List.take_append_drop]

theorem iterate_turned (h : n ≤ s.length) (i j : Nat) :
    (turned j n)^[i] s = turned (j * i) n s := by
  induction i with
  | zero => exact (turned_mul h 0).symm
  | succ i ih => rw [Function.iterate_succ_apply', ih, turned_turned h, Nat.mul_succ]

/-- A level, and the levels above and below it. -/
theorem exists_level (hn : 1 ≤ n) (h : n ≤ s.length) :
    ∃ (a : Stack) (v : Value) (b : Stack), s = a ++ v :: b ∧ a.length + 1 = n := by
  refine ⟨s.take (n - 1), s[n - 1], s.drop n, ?_, ?_⟩
  · have hdrop := List.drop_eq_getElem_cons (show n - 1 < s.length by omega)
    rw [Nat.sub_add_cancel hn] at hdrop
    rw [← hdrop, List.take_append_drop]
  · rw [List.length_take]
    omega

/-- A turn by all places but one brings the last of the levels to the top. -/
theorem turned_up (a b : Stack) (v : Value) :
    turned a.length (a.length + 1) (a ++ v :: b) = v :: (a ++ b) := by
  have hlen : (a ++ [v]).length = a.length + 1 := List.length_append
  rw [List.append_cons, turned, List.take_left' hlen, List.drop_left' hlen,
    List.rotate_append_length_eq]
  rfl

/-- A turn by one place moves the top below the other levels. -/
theorem turned_down (a b : Stack) (v : Value) :
    turned 1 (a.length + 1) (v :: (a ++ b)) = a ++ v :: b := by
  rw [turned, List.take_succ_cons, List.take_left, List.drop_succ_cons, List.drop_left,
    List.rotate_cons_succ, List.rotate_zero, List.append_assoc]
  rfl

theorem rollUp_eq_turned (hn : 1 ≤ n) (h : n ≤ s.length) :
    s.rollUp n = .ok (turned (n - 1) n s) := by
  obtain ⟨a, v, b, rfl, rfl⟩ := exists_level hn h
  rw [rollUp, Nat.max_eq_left hn, Nat.add_sub_cancel, List.drop_left, List.take_left, turned_up]

theorem rollDown_eq_turned (hn : 1 ≤ n) (h : n ≤ s.length) :
    s.rollDown n = .ok (turned 1 n s) := by
  obtain ⟨v, rest, rfl⟩ := List.exists_cons_of_length_pos (hn.trans h)
  obtain ⟨a, ha⟩ : ∃ a, a = rest.take (n - 1) := ⟨_, rfl⟩
  have hlen : a.length + 1 = n := by
    rw [List.length_cons] at h
    rw [ha, List.length_take]
    omega
  have hrest : v :: rest = v :: (a ++ rest.drop (n - 1)) := by rw [ha, List.take_append_drop]
  have hturned := turned_down a (rest.drop (n - 1)) v
  rw [hlen, ← hrest] at hturned
  rw [hturned, ha]
  simp only [rollDown, Nat.max_eq_left hn, if_pos h]

end Stack

namespace Machine

/-! ## Counts -/

/-- A value is a count if it becomes a number that is not negative and not too large. -/
structure Counts (d : Display) (c : Value) (n : Nat) : Prop where
  convert : c.convert d .integer = .ok (.integer n)
  lt : n < 2 ^ 64

variable {m : Machine} {c c' : Value} {n : Nat}

theorem Counts.count_push (h : Counts m.display c n) : (m.push c).count = .ok n := by
  have hlevel : (m.push c).stack.level 0 = .ok c := rfl
  have hconvert : c.convert (m.push c).display .integer = .ok (.integer n) := h.convert
  have hlimit : ¬countLimit ≤ n := by
    have := h.lt
    unfold countLimit
    omega
  simp only [count, hlevel, hconvert, if_neg (show ¬(n : Int) < 0 by omega), if_neg hlimit,
    Int.toNat_natCast]

/-- The levels to be counted are those below the count. -/
theorem Counts.levels_push (h : Counts m.display c n) (least : Nat) :
    (m.push c).levels least =
      if max n least ≤ m.stack.length then .ok (max n least)
      else .error (.tooShort (max n least) m.stack.length) := by
  have hlen : (m.push c).stack.length - 1 = m.stack.length := rfl
  simp only [levels, h.count_push, hlen]
  by_cases hle : max n least ≤ m.stack.length
  · rw [if_pos hle, if_neg (Nat.not_lt.mpr hle)]
  · rw [if_neg hle, if_pos (Nat.not_le.mp hle)]

/-! ## One word with two parameters -/

/-- A word that takes a count, works on `least` levels at least, and does `f` to the stack below the
count. -/
def TakesCount (word : String) (least : Nat) (f : Nat → Stack → Stack) : Prop :=
  ∀ m : Machine, outcomeOf word m = (m.levels least).map fun n => m.withStack (f n m.stack.tail)

theorem outcomeOf_action {word : String} {a : Action} (hne : word ≠ "")
    (hword : Builtin.ofWord? word = some (.action a)) : outcomeOf word = outcome a := by
  funext m
  rw [outcomeOf, if_neg hne, hword]
  rfl

theorem takesCount_dupn : TakesCount "dupn" 0 fun n s => s.take n ++ s := by
  intro m
  rw [outcomeOf_action (a := .duplicateCount) (by decide) (by decide), outcome]
  cases m.levels 0 <;> rfl

theorem takesCount_dropn : TakesCount "dropn" 0 fun n s => s.drop n := by
  intro m
  rw [outcomeOf_action (a := .dropCount) (by decide) (by decide), outcome]
  cases m.levels 0 with
  | error f => rfl
  | ok n =>
    show Except.ok (m.withStack (m.stack.drop (n + 1))) = .ok (m.withStack (m.stack.tail.drop n))
    rw [List.drop_tail]

/-- A word that moves levels takes a count, if the move is a change of the stack whenever there are
enough levels. -/
theorem takesCount_of_move {word : String} {a : Action} {move : Nat → Stack → Except Fault Stack}
    {f : Nat → Stack → Stack} (hne : word ≠ "") (hword : Builtin.ofWord? word = some (.action a))
    (houtcome : ∀ m, outcome a m = m.levels 1 >>= fun n => (move n m.stack.tail).map m.withStack)
    (hmove : ∀ {n : Nat} {s : Stack}, 1 ≤ n → n ≤ s.length → move n s = .ok (f n s)) :
    TakesCount word 1 f := by
  intro m
  rw [outcomeOf_action hne hword, houtcome]
  cases hn : m.levels 1 with
  | error e => rfl
  | ok n =>
    obtain ⟨hpos, hle⟩ := le_of_levels hn
    rw [Effect.ok_bind, hmove hpos hle]
    rfl

theorem takesCount_roll : TakesCount "roll" 1 fun n => Stack.turned (n - 1) n :=
  takesCount_of_move (a := .rollUp) (by decide) (by decide) (fun _ => rfl) Stack.rollUp_eq_turned

theorem takesCount_rolld : TakesCount "rolld" 1 fun n => Stack.turned 1 n :=
  takesCount_of_move (a := .rollDown) (by decide) (by decide) (fun _ => rfl)
    Stack.rollDown_eq_turned

/-- A word that needs so many levels below its count: it succeeds if there are as many, and fails
and changes nothing if there are not. -/
structure NeedsLevels (m : Machine) (c : Value) (word : String) (needed : Nat) : Prop where
  succeeds_iff : (perform word (m.push c)).1 = .ok () ↔ needed ≤ m.stack.length
  fails : m.stack.length < needed →
    ∃ f, f.category = .insufficientHeight ∧ f = .tooShort needed m.stack.length ∧
      perform word (m.push c) = (.error f, m.push c)

variable {word : String} {least : Nat} {f : Nat → Stack → Stack}

/-- **What a word that takes a count comes to.** -/
theorem TakesCount.perform_eq (hword : TakesCount word least f) (hc : Counts m.display c n)
    (h : max n least ≤ m.stack.length) :
    perform word (m.push c) = (.ok (), m.withStack (f (max n least) m.stack)) := by
  rw [perform_eq_attempt, Effect.attempt, hword, hc.levels_push, if_pos h]
  rfl

theorem TakesCount.needsLevels (hword : TakesCount word least f) (hc : Counts m.display c n) :
    NeedsLevels m c word (max n least) := by
  have hfails (h : m.stack.length < max n least) : perform word (m.push c) =
      (.error (.tooShort (max n least) m.stack.length), m.push c) := by
    rw [perform_eq_attempt, Effect.attempt, hword, hc.levels_push, if_neg (Nat.not_le.mpr h)]
    rfl
  refine ⟨⟨fun h => ?_, fun h => by rw [hword.perform_eq hc h]⟩,
    fun h => ⟨_, rfl, rfl, hfails h⟩⟩
  by_contra hlt
  rw [hfails (Nat.not_le.mp hlt)] at h
  cases h

/-! ## One word after another -/

/-- Put a count on the stack and carry out a word. -/
def counting (c : Value) (word : String) (m : Machine) : Machine := (m.push c).step word

theorem TakesCount.counting_eq (hword : TakesCount word least f) (hc : Counts m.display c n)
    (h : max n least ≤ m.stack.length) :
    counting c word m = m.withStack (f (max n least) m.stack) := by
  rw [counting, step, hword.perform_eq hc h]

/-- Two words one after the other, if the first leaves enough levels for the second. -/
theorem TakesCount.counting_counting {word' : String} {least' : Nat} {g : Nat → Stack → Stack}
    (hword : TakesCount word least f) (hword' : TakesCount word' least' g)
    (hc : Counts m.display c n) (hc' : Counts m.display c' n) (h : max n least ≤ m.stack.length)
    (h' : max n least' ≤ (f (max n least) m.stack).length) :
    counting c' word' (counting c word m) =
      m.withStack (g (max n least') (f (max n least) m.stack)) := by
  rw [hword.counting_eq hc h]
  exact hword'.counting_eq (m := m.withStack _) hc' h'

theorem iterate_counting_roll (hc : Counts m.display c n) (h : max n 1 ≤ m.stack.length)
    (i : Nat) : (counting c "roll")^[i] m =
      m.withStack ((Stack.turned (max n 1 - 1) (max n 1))^[i] m.stack) := by
  induction i with
  | zero => rfl
  | succ i ih =>
    rw [Function.iterate_succ_apply', Function.iterate_succ_apply', ih]
    refine takesCount_roll.counting_eq (m := m.withStack _) hc ?_
    show _ ≤ ((Stack.turned (max n 1 - 1) (max n 1))^[i] m.stack).length
    rwa [Stack.iterate_turned h, Stack.length_turned]

/-- **Each of `roll` and `rolld` undoes the other.** -/
theorem counting_roll_rolld (hc : Counts m.display c n) (hc' : Counts m.display c' n)
    (h : max n 1 ≤ m.stack.length) :
    counting c' "rolld" (counting c "roll" m) = m ∧
      counting c' "roll" (counting c "rolld" m) = m := by
  have hpos : 1 ≤ max n 1 := Nat.le_max_right n 1
  have hall (i j : Nat) (hij : j + i = max n 1) :
      Stack.turned i (max n 1) (Stack.turned j (max n 1) m.stack) = m.stack := by
    rw [Stack.turned_turned h, hij]
    simpa only [Nat.mul_one] using Stack.turned_mul h 1
  constructor
  · rw [takesCount_roll.counting_counting takesCount_rolld hc hc' h
      (by rwa [Stack.length_turned]), hall _ _ (Nat.sub_add_cancel hpos)]
    rfl
  · rw [takesCount_rolld.counting_counting takesCount_roll hc hc' h
      (by rwa [Stack.length_turned]), hall _ _ (Nat.add_sub_cancel' hpos)]
    rfl

/-- **Copied levels are dropped again.** -/
theorem counting_dupn_dropn (hc : Counts m.display c n) (hc' : Counts m.display c' n)
    (h : n ≤ m.stack.length) : counting c' "dropn" (counting c "dupn" m) = m := by
  have hzero : max n 0 = n := Nat.max_zero n
  have hlen : (m.stack.take n).length = n := by rw [List.length_take, Nat.min_eq_left h]
  rw [takesCount_dupn.counting_counting takesCount_dropn hc hc' (by rwa [hzero])
    (by rw [hzero, List.length_append]; omega), hzero, List.drop_left' hlen]
  rfl

/-- **A level brought up as often as there are levels counted is back in its place.** -/
theorem iterate_counting_roll_self (hc : Counts m.display c n) (h : n ≤ m.stack.length) :
    (counting c "roll")^[n] m = m := by
  obtain rfl | hpos := Nat.eq_zero_or_pos n
  · rfl
  · have hmax : max n 1 = n := Nat.max_eq_left hpos
    rw [iterate_counting_roll hc (by rwa [hmax]), hmax, Stack.iterate_turned h, Nat.mul_comm,
      Stack.turned_mul h]
    rfl

/-- **The words that take a count of levels.**  Let a count of `n` lie on a stack.  `dupn` and
`dropn` need `n` levels below it, `roll` and `rolld` need one level at least, and without them the
word fails and leaves the stack with the count on it.  `dupn` puts the upper `n` levels there once
more, and `dropn` takes them away.  `roll` brings the last of the levels to the top and `rolld`
moves the top below the others; the levels between keep their order and those below their places.

`dropn` undoes `dupn`, `roll` and `rolld` undo each other, and `roll` done `n` times undoes itself.
The second count need not be the same value as the first, as long as it counts the same. -/
theorem counted_words (hc : Counts m.display c n) :
    NeedsLevels m c "dupn" n ∧ NeedsLevels m c "dropn" n ∧
    NeedsLevels m c "roll" (max n 1) ∧ NeedsLevels m c "rolld" (max n 1) ∧
    (n ≤ m.stack.length →
      perform "dupn" (m.push c) = (.ok (), m.withStack (m.stack.take n ++ m.stack)) ∧
      perform "dropn" (m.push c) = (.ok (), m.withStack (m.stack.drop n))) ∧
    (∀ (above below : Stack) (v : Value), above.length + 1 = max n 1 →
      (m.stack = above ++ v :: below →
        perform "roll" (m.push c) = (.ok (), m.withStack (v :: (above ++ below)))) ∧
      (m.stack = v :: (above ++ below) →
        perform "rolld" (m.push c) = (.ok (), m.withStack (above ++ v :: below)))) ∧
    ∀ c', Counts m.display c' n →
      (n ≤ m.stack.length → counting c' "dropn" (counting c "dupn" m) = m ∧
        (counting c "roll")^[n] m = m) ∧
      (max n 1 ≤ m.stack.length → counting c' "rolld" (counting c "roll" m) = m ∧
        counting c' "roll" (counting c "rolld" m) = m) := by
  have hzero : max n 0 = n := Nat.max_zero n
  have hdup := takesCount_dupn.needsLevels hc
  have hdrop := takesCount_dropn.needsLevels hc
  rw [hzero] at hdup hdrop
  refine ⟨hdup, hdrop, takesCount_roll.needsLevels hc, takesCount_rolld.needsLevels hc,
    fun h => ⟨?_, ?_⟩, fun above below v hlen => ⟨fun hs => ?_, fun hs => ?_⟩,
    fun c' hc' => ⟨fun h => ⟨counting_dupn_dropn hc hc' h, iterate_counting_roll_self hc h⟩,
      counting_roll_rolld hc hc'⟩⟩
  · rw [takesCount_dupn.perform_eq hc (by rwa [hzero]), hzero]
  · rw [takesCount_dropn.perform_eq hc (by rwa [hzero]), hzero]
  -- The levels counted are those above and the one to be moved.
  · rw [takesCount_roll.perform_eq hc (by rw [← hlen, hs]; simp), ← hlen, hs, Nat.add_sub_cancel,
      Stack.turned_up]
  · rw [takesCount_rolld.perform_eq hc (by rw [← hlen, hs]; simp), ← hlen, hs, Stack.turned_down]

/-- A count that is a float, on three levels. -/
def countedThree : Machine :=
  ((({} : Machine).push (.integer 3)).push (.integer 4)).push (.integer 5)

theorem counted_words_float :
    Counts countedThree.display (.float ⟨0x4004000000000000⟩) 2 ∧
      perform "roll" (countedThree.push (.float ⟨0x4004000000000000⟩)) =
        (.ok (), countedThree.withStack [.integer 4, .integer 5, .integer 3]) := by
  have hc : Counts countedThree.display (.float ⟨0x4004000000000000⟩) 2 :=
    ⟨by rfl, by decide⟩
  exact ⟨hc, ((counted_words hc).2.2.2.2.2.1 [.integer 5] [.integer 3] (.integer 4) rfl).1 rfl⟩

end Machine
end RpnCalculator
