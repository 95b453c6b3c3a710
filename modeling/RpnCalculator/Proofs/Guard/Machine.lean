import RpnCalculator.Proofs.Guard.Operation
import RpnCalculator.Proofs.Guard.Reading
import RpnCalculator.Proofs.Guard.Text
import RpnCalculator.Proofs.Machine.Frame
import RpnCalculator.Proofs.Machine.Reachable

/-!
# No word stops the calculator

Every word is carried out with guarded operations, and what comes of it is what the word does:
a result or a fault, and never a breach.  So it is in every machine that can be reached
(`Machine.never_breaches`).

Two facts are behind this, and each of them is made sure of in one place and relied on in
another.

* **The stack is not empty where a count was read.**  The words that take a count look at it
  first and fail if there is none, and only then subtract one from the height of the stack for
  the values below it.  After the count is gone, `dupn` reads a level that is below the height
  at every turn of its loop, because a copy makes the stack higher (`times_copy_eq`).
* **Everything on the stack is well-formed.**  That is an invariant of the calculator
  (`Reachable.invariant`), and a fraction that is well-formed has a denominator other than
  zero.  A file can hold any fraction, and is read as far as to find that out.

What the calculator demands of texts and bytes it demands of all of them, so there no state
comes in.
-/

namespace RpnCalculator

namespace Guarded

open Machine (Holds)

variable {α β : Type}

/-! ## Stacks

A stack is kept with its bottom first, so its top levels are the end of a sequence. -/

/-- The values beneath the top `n`, and the top `n`; both bottom first. -/
def topSlice (n : Nat) (s : Stack) : Guarded (Except Fault (List Value × List Value)) :=
  if s.length < n then pure (.error (.tooShort n s.length))
  else do
    let start ← subtract s.length n
    let top ← sliceFrom s.reverse start
    pure (.ok (s.reverse.take start, top))

/-- Move the first `k` items behind the others. -/
def rotateLeft (l : List α) (k : Nat) : Guarded (List α) := do
  let front ← slice l 0 k
  let back ← sliceFrom l k
  pure (back ++ front)

/-- Move the last `k` items before the others. -/
def rotateRight (l : List α) (k : Nat) : Guarded (List α) := do
  let middle ← subtract l.length k
  rotateLeft l middle

/-- Exchange two items. -/
def exchange (l : List α) (i j : Nat) : Guarded (List α) := do
  let a ← item l i
  let b ← item l j
  pure ((l.set i b).set j a)

/-- Bring level `n - 1` to the top. -/
def rollUp (n : Nat) (s : Stack) : Guarded (Except Fault Stack) :=
  andThen (topSlice (max n 1) s) fun (beneath, top) => do
    let top ← rotateLeft top 1
    pure (.ok (beneath ++ top).reverse)

/-- Move the top to level `n - 1`. -/
def rollDown (n : Nat) (s : Stack) : Guarded (Except Fault Stack) :=
  andThen (topSlice (max n 1) s) fun (beneath, top) => do
    let top ← rotateRight top 1
    pure (.ok (beneath ++ top).reverse)

/-- Exchange the two top levels. -/
def swap (s : Stack) : Guarded (Except Fault Stack) :=
  andThen (topSlice 2 s) fun (beneath, top) => do
    let top ← exchange top 0 1
    pure (.ok (beneath ++ top).reverse)

theorem topSlice_of_lt {n : Nat} {s : Stack} (h : s.length < n) :
    topSlice n s = .ok (.error (.tooShort n s.length)) := if_pos h

/-- **The top of a stack that is high enough lies within it.** -/
theorem topSlice_append (top beneath : List Value) :
    topSlice top.length (top ++ beneath) = .ok (.ok (beneath.reverse, top.reverse)) := by
  have hstart : (top ++ beneath).length - top.length = beneath.reverse.length := by
    rw [List.length_append, List.length_reverse, Nat.add_sub_cancel_left]
  have hlen : top.length ≤ (top ++ beneath).length := by
    rw [List.length_append]
    exact Nat.le_add_right ..
  rw [topSlice, if_neg (Nat.not_lt.mpr hlen), subtract_eq hlen, ok_bind, hstart,
    List.reverse_append, sliceFrom_eq (by simp), List.drop_left, List.take_left]
  rfl

theorem rotateLeft_append (front back : List α) :
    rotateLeft (front ++ back) front.length = .ok (back ++ front) := by
  rw [rotateLeft, slice_eq (Nat.zero_le _) (by simp), ok_bind, sliceFrom_eq (by simp), ok_bind,
    List.take_left, List.drop_zero, List.drop_left]
  rfl

theorem rotateRight_append (front back : List α) :
    rotateRight (front ++ back) back.length = .ok (back ++ front) := by
  have hmiddle : (front ++ back).length - back.length = front.length := by
    rw [List.length_append, Nat.add_sub_cancel]
  rw [rotateRight, subtract_eq (by simp), ok_bind, hmiddle, rotateLeft_append]

/-- A stack with a level that is asked for, cut above and below it. -/
theorem exists_eq_append {k : Nat} {s : Stack} (hk : 1 ≤ k) (h : k ≤ s.length) :
    ∃ above v below, s = above ++ v :: below ∧ above.length + 1 = k := by
  refine ⟨s.take (k - 1), s[k - 1], s.drop (k - 1 + 1), ?_, ?_⟩
  · rw [← List.drop_eq_getElem_cons, List.take_append_drop]
  · rw [List.length_take]
    omega

theorem rollUp_eq (n : Nat) (s : Stack) : rollUp n s = .ok (s.rollUp n) := by
  unfold rollUp Stack.rollUp
  dsimp only
  by_cases h : s.length < max n 1
  · rw [topSlice_of_lt h, List.drop_eq_nil_of_le (by omega)]
    rfl
  · obtain ⟨above, v, below, rfl, hlen⟩ :=
      exists_eq_append (Nat.le_max_right n 1) (Nat.le_of_not_lt h)
    have htop : topSlice (above.length + 1) (above ++ v :: below) =
        .ok (.ok (below.reverse, [v] ++ above.reverse)) := by
      have := topSlice_append (above ++ [v]) below
      rwa [List.length_append, List.append_assoc, List.reverse_append] at this
    have hrotate : rotateLeft ([v] ++ above.reverse) 1 = .ok (above.reverse ++ [v]) :=
      rotateLeft_append [v] above.reverse
    rw [← hlen, htop, Nat.add_sub_cancel, List.drop_left, List.take_left, andThen_ok]
    dsimp only
    rw [hrotate, ok_bind]
    simp

theorem rollDown_eq (n : Nat) (s : Stack) : rollDown n s = .ok (s.rollDown n) := by
  unfold rollDown
  by_cases h : s.length < max n 1
  · rw [topSlice_of_lt h]
    cases s with
    | nil => rfl
    | cons v s =>
      rw [Stack.rollDown]
      dsimp only
      rw [if_neg (Nat.not_le.mpr h)]
      rfl
  · cases s with
    | nil =>
      have := Nat.le_max_right n 1
      rw [List.length_nil] at h
      omega
    | cons v s =>
      obtain ⟨k, hk⟩ : ∃ k, max n 1 = k + 1 := ⟨max n 1 - 1, by omega⟩
      have hle : k ≤ s.length := by
        rw [hk, List.length_cons] at h
        omega
      have htop : topSlice (k + 1) (v :: s) =
          .ok (.ok ((s.drop k).reverse, (s.take k).reverse ++ [v])) := by
        have := topSlice_append (v :: s.take k) (s.drop k)
        rwa [List.cons_append, List.take_append_drop, List.length_cons, List.length_take,
          Nat.min_eq_left hle, List.reverse_cons] at this
      have hrotate : rotateRight ((s.take k).reverse ++ [v]) 1 = .ok ([v] ++ (s.take k).reverse) :=
        rotateRight_append (s.take k).reverse [v]
      rw [hk, htop, andThen_ok, Stack.rollDown]
      dsimp only
      rw [hrotate, ok_bind, hk, if_pos (by rw [List.length_cons]; omega)]
      simp

theorem swap_eq (s : Stack) : swap s = .ok s.swap := by
  rcases s with _ | ⟨v, _ | ⟨w, s⟩⟩
  · rfl
  · rfl
  · have htop : topSlice 2 (v :: w :: s) = .ok (.ok (s.reverse, [w, v])) := topSlice_append [v, w] s
    rw [swap, htop, andThen_ok]
    show Except.ok (Except.ok (s.reverse ++ [v, w]).reverse) = Except.ok (Stack.swap (v :: w :: s))
    simp [Stack.swap]

/-! ## Arguments -/

/-- The count on top of the stack. -/
def count (m : Machine) : Guarded (Except Fault Nat) :=
  andThen (pure (m.stack.level 0)) fun top => do
    match ← convert m.display .integer top with
    | .ok (.integer n) =>
      if n < 0 then pure (.error (.domain .negativeCount))
      else if Machine.countLimit ≤ n then pure (.error (.domain .countTooLarge))
      else pure (.ok n.toNat)
    | _ => pure (.error (.wrongKind .integer top.kind))

/-- A count of levels below it on the stack. -/
def levels (m : Machine) (least : Nat) : Guarded (Except Fault Nat) :=
  andThen (count m) fun n => do
    let available ← subtract m.stack.length 1
    if available < max n least then pure (.error (.tooShort (max n least) available))
    else pure (.ok (max n least))

/-- What is to be included by the top of the stack. -/
def included (m : Machine) : Guarded (Except Fault Source) :=
  match m.stack.level 0 with
  | .ok (.program text) => do
    let source ← ofText text
    pure (.ok source)
  | _ => pure m.included

/-- The object that is stored at a path. -/
def stored (path : String) (m : Machine) : Guarded (Except Fault Value) := do
  let v ← readObject m.disk path
  pure (v.mapError .storage)

/-- The word on top of the stack, shifted. -/
def shifted (op : UnaryOperator) (m : Machine) : Guarded (Except Fault Value) :=
  andThen (pure (m.stack.level 0)) fun top =>
    if top.kind = .binary then applyUnary m.display op top
    else pure (.error (.wrongKind .binary top.kind))

/-- A level that is counted on. -/
def existing (n : Nat) (m : Machine) : Guarded (Except Fault Value) :=
  match m.stack.level n with
  | .ok v => pure (.ok v)
  | .error _ => .error (.level n)

section

variable {m : Machine} (h : m.Holds Value.WellFormed)

include h

theorem wellFormed_of_level {n : Nat} {v : Value} (hv : m.stack.level n = .ok v) :
    v.WellFormed := (Stack.ends_level h.stack n).of_ok hv

theorem count_eq : count m = .ok m.count := by
  unfold count Machine.count
  cases hlevel : m.stack.level 0 with
  | error f => rfl
  | ok top =>
    rw [pure_eq, andThen_ok, convert_eq (wellFormed_of_level h hlevel), ok_bind]
    dsimp only
    rcases top.convert m.display .integer with f | v
    · rfl
    · cases v with
      | integer n =>
        dsimp only
        split
        · rfl
        · split <;> rfl
      | _ => rfl

/-- **Where a count was read, there is something that it can be subtracted from.** -/
theorem levels_eq (least : Nat) : levels m least = .ok (m.levels least) := by
  rw [levels, count_eq h]
  unfold Machine.levels
  cases hcount : m.count with
  | error f => rfl
  | ok n =>
    have hpos := List.length_pos_iff.mpr (Machine.onTop_count.ne_nil hcount)
    rw [andThen_ok, subtract_eq hpos, ok_bind]
    dsimp only
    split <;> rfl

theorem shifted_eq (op : UnaryOperator) : shifted op m = .ok (Machine.shifted op m) := by
  unfold shifted Machine.shifted
  cases hlevel : m.stack.level 0 with
  | error f => rfl
  | ok top =>
    rw [pure_eq, andThen_ok]
    dsimp only
    split
    · exact applyUnary_eq top op (wellFormed_of_level h hlevel)
    · rfl

end

theorem included_eq (m : Machine) : included m = .ok m.included := by
  unfold included
  split
  · rename_i text hlevel
    rw [ofText_eq, Machine.included, hlevel]
    rfl
  · rfl

theorem stored_eq (path : String) (m : Machine) :
    stored path m = .ok (Machine.stored path m) := by
  rw [stored, readObject_eq, Machine.stored]
  cases m.disk.readObject path <;> rfl

/-- A level below the height exists. -/
theorem existing_eq {n : Nat} {m : Machine} (h : n < m.stack.length) :
    existing n m = .ok (m.stack.level n) := by
  have hlevel : m.stack.level n = .ok m.stack[n] :=
    Stack.level_eq_ok_iff.mpr (List.getElem?_eq_getElem h)
  rw [existing, hlevel]
  rfl

/-! ## Procedures -/

/-- A procedure that can stop at a breach. -/
def Procedure (α : Type) : Type := Machine → Guarded (Except Fault α × Machine)

instance : Monad Procedure where
  pure a := fun m => .ok (.ok a, m)
  bind e f := fun m => do
    match ← e m with
    | (.ok a, m') => f a m'
    | (.error x, m') => pure (.error x, m')

/-- Look at a machine. -/
def look (r : Machine → Guarded (Except Fault α)) : Procedure α := fun m => do
  let a ← r m
  pure (a, m)

/-- A procedure that demands nothing. -/
def plain (e : Machine.Procedure α) : Procedure α := fun m => .ok (e m)

/-- Rearrange the stack as a whole. -/
def rearrange (f : Stack → Guarded (Except Fault Stack)) : Procedure Unit := fun m => do
  match ← f m.stack with
  | .ok s => pure (.ok (), m.withStack s)
  | .error x => pure (.error x, m)

/-- Do something several times. -/
def times (e : Procedure Unit) : Nat → Procedure Unit
  | 0 => pure ()
  | n + 1 => do
    e
    times e n

section

variable {m : Machine}

/-- What comes after a look has to be compared only where the look has seen something. -/
theorem look_bind_eq {r : Machine → Guarded (Except Fault α)} {r₀ : Machine → Except Fault α}
    {f : α → Procedure β} {f₀ : α → Machine.Procedure β} (hr : r m = .ok (r₀ m))
    (hf : ∀ a, r₀ m = .ok a → f a m = .ok (f₀ a m)) :
    (look r >>= f) m = .ok ((Effect.look r₀ >>= f₀) m) := by
  have hlook : look r m = .ok (r₀ m, m) := by
    rw [look, hr]
    rfl
  show (look r m >>= _) = _
  rw [hlook, ok_bind, Effect.look_bind_apply]
  cases h : r₀ m with
  | ok a => exact hf a h
  | error x => rfl

theorem bind_eq {e : Procedure α} {e₀ : Machine.Procedure α} {f : α → Procedure β}
    {f₀ : α → Machine.Procedure β} (he : e m = .ok (e₀ m))
    (hf : ∀ a, f a (e₀ m).2 = .ok (f₀ a (e₀ m).2)) : (e >>= f) m = .ok ((e₀ >>= f₀) m) := by
  show (e m >>= _) = _
  rw [he, ok_bind, Effect.bind_apply]
  generalize e₀ m = p at hf ⊢
  obtain ⟨r, m'⟩ := p
  cases r with
  | ok a => exact hf a
  | error x => rfl

theorem rearrange_eq {f : Stack → Guarded (Except Fault Stack)}
    {f₀ : Stack → Except Fault Stack} (hf : ∀ s, f s = .ok (f₀ s)) :
    rearrange f m = .ok (Machine.rearrange f₀ m) := by
  rw [rearrange, hf, ok_bind, Machine.rearrange_eq_attempt, Effect.attempt]
  cases f₀ m.stack <;> rfl

end

/-! ## Actions -/

/-- Copy the last of the top `n` values. -/
def copy (n : Nat) : Procedure Unit := do
  let level ← look fun _ => do
    let level ← subtract n 1
    pure (.ok level)
  let v ← look (existing level)
  plain (.change (·.push v))

theorem copy_eq {n : Nat} {m : Machine} (hn : 1 ≤ n) (h : n ≤ m.stack.length) :
    copy n m = .ok (Machine.copy (n - 1) m) := by
  have hlevel : copy n m =
      (look (existing (n - 1)) >>= fun v => plain (.change (·.push v))) m := by
    show (look _ m >>= _) = _
    rw [look, subtract_eq hn]
    rfl
  rw [hlevel]
  exact look_bind_eq (existing_eq (by omega)) fun v _ => rfl

/-- Copying makes a stack higher. -/
theorem le_length_copy (level : Nat) (m : Machine) :
    m.stack.length ≤ (Machine.copy level m).2.stack.length := by
  rw [Machine.copy, Effect.look_bind_apply]
  cases m.stack.level level with
  | ok v => exact Nat.le_succ _
  | error f => exact Nat.le_refl _

/-- **The copies are there.**  A stack that is as high as the count of the copies is so after
every copy. -/
theorem times_copy_eq {n : Nat} (hn : 1 ≤ n) (j : Nat) {m : Machine} (h : n ≤ m.stack.length) :
    times (copy n) j m = .ok (Effect.times (Machine.copy (n - 1)) j m) := by
  induction j generalizing m with
  | zero => rfl
  | succ j ih => exact bind_eq (copy_eq hn h) fun _ => ih (Nat.le_trans h (le_length_copy _ m))

/-- Carry out an action. -/
def act : Action → Procedure Unit
  | .setFloat float => do
    let decimals ← look count
    if Display.maxDecimals < decimals then plain (.fail (.domain .tooManyDecimals))
    else plain do
      Machine.discard
      Machine.configure ({ · with float, decimals })
  | .setWordSize => do
    let wordSize ← look count
    if 1 ≤ wordSize ∧ wordSize ≤ Display.maxWordSize then plain do
      Machine.discard
      Machine.configure ({ · with wordSize })
    else plain (.fail (.domain .wordSizeOutOfRange))
  | .dropCount => do
    let n ← look (levels · 0)
    plain (Machine.discard.times (n + 1))
  | .duplicateCount => do
    let n ← look (levels · 0)
    plain Machine.discard
    times (copy n) n
  | .swap => rearrange swap
  | .rotate => rearrange (rollUp 3)
  | .rollUp => do
    let n ← look (levels · 1)
    plain Machine.discard
    rearrange (rollUp n)
  | .rollDown => do
    let n ← look (levels · 1)
    plain Machine.discard
    rearrange (rollDown n)
  | .includeSource => do
    let source ← look included
    plain do
      Machine.discard
      .change fun m => { m with sources := source :: m.sources }
  | .readObject => do
    let path ← plain (.look Machine.name)
    let v ← look (stored path)
    plain (Machine.replaceTop v)
  | .shiftLeft => do
    let v ← look (shifted .shiftLeft)
    plain (Machine.replaceTop v)
  | .shiftRight => do
    let v ← look (shifted .shiftRight)
    plain (Machine.replaceTop v)
  | a => plain (Machine.act a)

/-- **An action can be carried out** where everything on the stack is well-formed. -/
theorem act_eq {m : Machine} (h : m.Holds Value.WellFormed) (a : Action) :
    act a m = .ok (Machine.act a m) := by
  cases a with
  | setFloat float =>
    refine look_bind_eq (count_eq h) fun decimals _ => ?_
    split <;> rfl
  | setWordSize =>
    refine look_bind_eq (count_eq h) fun wordSize _ => ?_
    split <;> rfl
  | dropCount => exact look_bind_eq (levels_eq h 0) fun n _ => rfl
  | duplicateCount =>
    refine look_bind_eq (levels_eq h 0) fun n hn => bind_eq rfl fun _ => ?_
    have hlen : n ≤ m.stack.tail.length := (Machine.le_of_levels hn).2
    cases n with
    | zero => rfl
    | succ n => exact times_copy_eq (Nat.succ_pos n) (n + 1) hlen
  | swap => exact rearrange_eq swap_eq
  | rotate => exact rearrange_eq (rollUp_eq 3)
  | rollUp =>
    exact look_bind_eq (levels_eq h 1) fun n _ => bind_eq rfl fun _ => rearrange_eq (rollUp_eq n)
  | rollDown =>
    exact look_bind_eq (levels_eq h 1) fun n _ => bind_eq rfl fun _ => rearrange_eq (rollDown_eq n)
  | includeSource => exact look_bind_eq (included_eq m) fun source _ => rfl
  | readObject => exact bind_eq rfl fun path => look_bind_eq (stored_eq path m) fun v _ => rfl
  | shiftLeft => exact look_bind_eq (shifted_eq h .shiftLeft) fun v _ => rfl
  | shiftRight => exact look_bind_eq (shifted_eq h .shiftRight) fun v _ => rfl
  | _ => rfl

/-! ## Words -/

/-- The result of an operator on the two top values. -/
def binaryResult (op : BinaryOperator) (m : Machine) : Guarded (Except Fault Value) :=
  match m.stack with
  | r :: l :: _ => applyBinary m.display op l r
  | _ => pure (.error .underflow)

/-- The result of an operator or a conversion on the top value. -/
def unaryResult (w : UnaryWord) (m : Machine) : Guarded (Except Fault Value) :=
  match m.stack with
  | [] => pure (.error .underflow)
  | v :: _ =>
    match w with
    | .apply op => applyUnary m.display op v
    | .convert target => convert m.display target v

/-- Carry out a builtin word. -/
def execute : Builtin → Procedure Unit
  | .binary op => do
    let v ← look (binaryResult op)
    plain do
      Machine.discard
      Machine.replaceTop v
  | .unary w => do
    let v ← look (unaryResult w)
    plain (Machine.replaceTop v)
  | .action a => act a

/-- Carry out a word that is no builtin. -/
def performOther (m : Machine) (word : String) : Guarded Machine := do
  match ← parse m.display word with
  | .ok v => pure (m.push v)
  | .error _ =>
    match Directory.find? word m.bindings with
    | some v => pure (m.push v)
    | none => pure m

/-- Carry out a word. -/
def perform (word : String) : Procedure Unit :=
  if word = "" then act .duplicate
  else
    match Builtin.ofWord? word with
    | some b => execute b
    | none => fun m => do
      let m' ← performOther m word
      pure (.ok (), m')

section

variable {m : Machine}

theorem performOther_eq (m : Machine) (word : String) :
    performOther m word = .ok (m.performOther word) := by
  rw [performOther, parse_eq, ok_bind, Machine.performOther]
  cases Literal.parse m.display word with
  | ok v => rfl
  | error f => cases Directory.find? word m.bindings <;> rfl

variable (h : m.Holds Value.WellFormed)

include h

theorem binaryResult_eq (op : BinaryOperator) :
    binaryResult op m = .ok (Machine.binaryResult op m) := by
  have hs := h.stack
  unfold binaryResult Machine.binaryResult
  generalize m.stack = s at hs ⊢
  rcases s with _ | ⟨r, _ | ⟨l, rest⟩⟩
  · rfl
  · rfl
  · rw [List.forall_mem_cons, List.forall_mem_cons] at hs
    exact applyBinary_eq l op r hs.2.1 hs.1

theorem unaryResult_eq (w : UnaryWord) : unaryResult w m = .ok (Machine.unaryResult w m) := by
  have hs := h.stack
  unfold unaryResult Machine.unaryResult
  generalize m.stack = s at hs ⊢
  rcases s with _ | ⟨v, rest⟩
  · rfl
  · rw [List.forall_mem_cons] at hs
    cases w with
    | apply op => exact applyUnary_eq v op hs.1
    | convert target => exact convert_eq hs.1 target

/-- **So can a word.** -/
theorem perform_eq (word : String) : perform word m = .ok (Machine.perform word m) := by
  unfold perform Machine.perform
  by_cases hword : word = ""
  · rw [if_pos hword, if_pos hword]
    exact act_eq h .duplicate
  rw [if_neg hword, if_neg hword]
  cases Builtin.ofWord? word with
  | none =>
    dsimp only
    rw [performOther_eq]
    rfl
  | some b =>
    cases b with
    | binary op => exact look_bind_eq (binaryResult_eq h op) fun v _ => rfl
    | unary w => exact look_bind_eq (unaryResult_eq h w) fun v _ => rfl
    | action a => exact act_eq h a

end

/-- A fraction over zero, which no word makes, would be divided by. -/
example : perform "inv" { stack := [.rational ⟨1, 0⟩] } = .error .divisor := rfl

/-! ## Runs -/

/-- Carry out a word, or say why it fails. -/
def step (m : Machine) (word : String) : Guarded Machine := do
  match ← perform word m with
  | (.ok (), m') => pure m'
  | (.error f, m') => pure (m'.report f)

/-- Take one word. -/
def advance (m : Machine) : Guarded Machine.Turn :=
  if m.stopped then pure (.ended .stopped m)
  else do
    match ← nextOf? m.sources with
    | none => pure (.ended .exhausted { m with sources := [] })
    | some (word, sources) =>
      if word = quitWord then pure (.ended .stopped { m with sources, stopped := true })
      else do
        let m' ← step { m with sources } word
        pure (.running m')

/-- Take words until the run ends. -/
def run : Nat → Machine → Guarded (Option (Status × Machine))
  | 0, _ => pure none
  | bound + 1, m => do
    match ← advance m with
    | .ended status m => pure (some (status, m))
    | .running m => run bound m

/-- Queue a line and run. -/
def evaluate (bound : Nat) (m : Machine) (line : String) :
    Guarded (Option (Status × Machine)) := do
  let source ← ofText line
  run bound { m with sources := source :: m.sources }

theorem step_eq {m : Machine} (h : m.Holds Value.WellFormed) (word : String) :
    step m word = .ok (m.step word) := by
  rw [step, perform_eq h, ok_bind, Machine.step]
  rcases Machine.perform word m with ⟨_ | _, m'⟩ <;> rfl

theorem advance_eq {m : Machine} (h : m.Holds Value.WellFormed) : advance m = .ok m.advance := by
  unfold advance Machine.advance
  by_cases hstopped : m.stopped = true
  · rw [if_pos hstopped, if_pos hstopped]
    rfl
  rw [if_neg hstopped, if_neg hstopped, nextOf?_eq, ok_bind]
  rcases Sources.next? m.sources with _ | ⟨word, sources⟩
  · rfl
  · dsimp only
    split
    · rfl
    · rw [step_eq (m := { m with sources }) ⟨h.stack, h.bindings⟩]
      rfl

end Guarded

namespace Machine

open Guarded (ok_bind)

variable {m : Machine}

theorem Reachable.holds_wellFormed (h : m.Reachable) : m.Holds Value.WellFormed :=
  h.invariant (invariant_holds lasting_wellFormed)

/-- A run goes through reachable machines. -/
theorem Reachable.guarded_run (h : m.Reachable) (bound : Nat) :
    Guarded.run bound m = .ok (m.run bound) := by
  induction bound generalizing m with
  | zero => rfl
  | succ bound ih =>
    have hnext := h.advance
    rw [Guarded.run, Guarded.advance_eq h.holds_wellFormed, ok_bind, Machine.run]
    cases hturn : m.advance with
    | ended status m' => rfl
    | running m' =>
      rw [hturn] at hnext
      exact ih hnext

/-- **No word ever stops the calculator.**  Every text is cut into words where its characters
begin, and every file is taken apart within its length.  In a machine that can be reached,
every word, every turn and every run, computed with operations that demand what the machine's
operations demand, comes to what it comes to without: nothing is subtracted from less, no
divisor and no denominator is zero, no root is taken of a negative number, no word is shifted
by all its bits, and no level that is counted on is missing. -/
theorem never_breaches :
    (∀ text : String, Guarded.tokenize text = .ok (tokenize text)) ∧
    (∀ bytes : List UInt8, Guarded.decode bytes = .ok (StoredObject.decode bytes)) ∧
    ∀ m : Machine, m.Reachable →
      (∀ word, Guarded.perform word m = .ok (perform word m)) ∧
      Guarded.advance m = .ok m.advance ∧
      (∀ bound, Guarded.run bound m = .ok (m.run bound)) ∧
      ∀ bound line, Guarded.evaluate bound m line = .ok (m.evaluate bound line) := by
  refine ⟨Guarded.tokenize_eq, Guarded.decode_eq, fun m h => ⟨?_, ?_, ?_, ?_⟩⟩
  · exact Guarded.perform_eq h.holds_wellFormed
  · exact Guarded.advance_eq h.holds_wellFormed
  · exact h.guarded_run
  · intro bound line
    rw [Guarded.evaluate, Guarded.ofText_eq, ok_bind]
    exact (h.submit line).guarded_run bound

/-- A text is cut before a blank of three bytes, and a value is copied as often as the value above
it says. -/
theorem never_breaches_copies :
    Guarded.tokenize "7\u30001" = .ok ["7", "1"] ∧
    (submit {} "7 1").advance.machine.advance.machine.Reachable ∧
    (Guarded.perform "dupn" (submit {} "7 1").advance.machine.advance.machine).map (·.2.stack) =
      .ok [.integer 7, .integer 7] := by
  have hm : (submit {} "7 1").advance.machine.advance.machine.Reachable :=
    ((Reachable.new .empty).submit "7 1").advance.advance
  refine ⟨?_, hm, ?_⟩
  · rw [never_breaches.1]
    decide +kernel
  · rw [(never_breaches.2.2 _ hm).1]
    rfl

end Machine

end RpnCalculator
