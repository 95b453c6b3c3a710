import RpnCalculator.Value.Basic

/-!
# The operand stack

A stack is a list of values, the top first, so that the value at level `n` is the `n`-th
of the list.  Moving a value up or down the stack leaves the values below its levels in
place; a move to or from level zero moves nothing.
-/

namespace RpnCalculator

/-- Operands, the top first. -/
abbrev Stack := List Value

namespace Stack

/-- Replace the top, or put a value on an empty stack. -/
def put (v : Value) : Stack → Stack
  | [] => [v]
  | _ :: s => v :: s

/-- The value at a level.  On a stack that is not empty, the fault says how many levels
would have been needed. -/
def level (s : Stack) (n : Nat) : Except Fault Value :=
  match s[n]? with
  | some v => .ok v
  | none => if s.isEmpty then .error .underflow else .error (.tooShort (n + 1) s.length)

/-- Discard the top. -/
def discard : Stack → Except Fault Stack
  | [] => .error .underflow
  | _ :: s => .ok s

/-- Bring level `n - 1` to the top; the levels above it move down by one. -/
def rollUp (n : Nat) (s : Stack) : Except Fault Stack :=
  let k := max n 1
  match s.drop (k - 1) with
  | v :: rest => .ok (v :: (s.take (k - 1) ++ rest))
  | [] => .error (.tooShort k s.length)

/-- Move the top to level `n - 1`; the levels up to it move up by one. -/
def rollDown (n : Nat) (s : Stack) : Except Fault Stack :=
  let k := max n 1
  match s with
  | v :: rest =>
    if k ≤ s.length then .ok (rest.take (k - 1) ++ v :: rest.drop (k - 1))
    else .error (.tooShort k s.length)
  | [] => .error (.tooShort k 0)

/-- Bring the third level to the top. -/
def rotate (s : Stack) : Except Fault Stack := s.rollUp 3

/-- Exchange the two top levels. -/
def swap : Stack → Except Fault Stack
  | v :: w :: s => .ok (w :: v :: s)
  | s => .error (.tooShort 2 s.length)

/-- Moving up succeeds when the stack is high enough. -/
theorem rollUp_eq_ok_iff {n : Nat} {s : Stack} :
    (∃ t, s.rollUp n = .ok t) ↔ max n 1 ≤ s.length := by
  unfold rollUp
  dsimp only
  split
  · rename_i v rest h
    have := congrArg List.length h
    simp only [List.length_drop, List.length_cons] at this
    simp only [Except.ok.injEq, exists_eq', true_iff]
    omega
  · rename_i h
    have := congrArg List.length h
    simp only [List.length_drop, List.length_nil] at this
    simp only [reduceCtorEq, exists_false, false_iff]
    omega

end Stack

end RpnCalculator
