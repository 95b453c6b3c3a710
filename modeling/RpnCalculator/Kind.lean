/-!
# The kinds of value

A value of the calculator is of one of twelve kinds.  The order in which they
are declared is part of two formats: the position of a kind is the tag of a
stored object, and it is what a table of kinds is indexed by.

## Where two operands meet

A binary operation first brings its operands to one kind.  Five kinds are
numeric, and they form a chain

  word, integer, rational, float, complex

in which each kind can hold the numbers of the one before it.  Two numeric
operands meet in the higher of their kinds.  Any other operand meets only an
operand of its own kind, and a directory does not even do that.  `Kind.join?`
is this rule; it is a function of the ranks in the chain and not a table of
pairs, so that its laws (symmetry, idempotence) follow from those of `max`.
-/

namespace RpnCalculator

/-- The kinds of value, in the order that stored objects number them. -/
inductive Kind where
  | binary
  | complex
  | directory
  | float
  | integer
  | labeled
  | list
  | matrix
  | program
  | rational
  | string
  | vector
  deriving DecidableEq, Inhabited, Repr

namespace Kind

/-- Every kind, in order. -/
def all : List Kind :=
  [.binary, .complex, .directory, .float, .integer, .labeled, .list, .matrix,
    .program, .rational, .string, .vector]

/-- The position of a kind in `all`. -/
def index : Kind → Nat
  | .binary => 0
  | .complex => 1
  | .directory => 2
  | .float => 3
  | .integer => 4
  | .labeled => 5
  | .list => 6
  | .matrix => 7
  | .program => 8
  | .rational => 9
  | .string => 10
  | .vector => 11

/-- The kind at a position. -/
def ofIndex? (n : Nat) : Option Kind := all[n]?

@[simp] theorem ofIndex?_index (k : Kind) : ofIndex? k.index = some k := by
  cases k <;> rfl

/-- A kind is at no other position. -/
theorem eq_index_of_ofIndex? {n : Nat} {k : Kind} (h : ofIndex? n = some k) : n = k.index := by
  match n with
  | 0 | 1 | 2 | 3 | 4 | 5 | 6 | 7 | 8 | 9 | 10 | 11 =>
    cases h
    rfl
  | _ + 12 => cases h

/-- The three letters that listings and messages show. -/
def abbreviation : Kind → String
  | .binary => "BIN"
  | .complex => "CPX"
  | .directory => "DIR"
  | .float => "FLT"
  | .integer => "INT"
  | .labeled => "LBL"
  | .list => "LST"
  | .matrix => "MAT"
  | .program => "PGM"
  | .rational => "RAT"
  | .string => "STR"
  | .vector => "VEC"

/-- The kind with the given three letters. -/
def ofAbbreviation? (s : String) : Option Kind := all.find? fun k => k.abbreviation == s

@[simp] theorem ofAbbreviation?_abbreviation (k : Kind) :
    ofAbbreviation? k.abbreviation = some k := by
  cases k <;> decide

/-! ## The chain of numeric kinds -/

/-- The place of a numeric kind in the chain, lowest first. -/
def rank? : Kind → Option Nat
  | .binary => some 0
  | .integer => some 1
  | .rational => some 2
  | .float => some 3
  | .complex => some 4
  | _ => none

/-- The kind in which operands of the two kinds meet. -/
def join? (l r : Kind) : Option Kind :=
  match l.rank?, r.rank? with
  | some m, some n => some (if m ≤ n then r else l)
  | _, _ => if l = r ∧ l ≠ .directory then some l else none

theorem join?_comm (l r : Kind) : l.join? r = r.join? l := by
  cases l <;> cases r <;> rfl

/-- Only a directory does not meet its own kind. -/
theorem join?_self (k : Kind) : k.join? k = if k = .directory then none else some k := by
  cases k <;> rfl

end Kind

end RpnCalculator
