import RpnCalculator.Display
import RpnCalculator.Operator
import RpnCalculator.Kind

/-!
# The words that mean something by themselves

Builtin words come in three tables: operators on two values, operators and conversions
on one value, and actions.  No word is in two tables or twice in one
(`nodup_words`), so the order in which the tables are consulted does not matter.

`quit` is in none of them.  It is not carried out but ends the reading of words.
-/

namespace RpnCalculator

/-- What a word on one value does. -/
inductive UnaryWord where
  | apply (op : UnaryOperator)
  | convert (target : Kind)
  deriving DecidableEq, Repr

/-- What a word does that is not an operator. -/
inductive Action where
  | setBase (base : Base)
  | setAngle (unit : AngleUnit)
  | setComplex (form : ComplexForm)
  /-- Takes the number of decimals. -/
  | setFloat (form : FloatForm)
  /-- Takes the width. -/
  | setWordSize
  | clear
  | drop
  | dropCount
  | duplicate
  | duplicateCount
  | swap
  | rotate
  | rollUp
  | rollDown
  /-- Includes a script by name, or a program. -/
  | includeSource
  | banner
  | quitReminder
  | store
  | purge
  | writeObject
  | readObject
  | shiftLeft
  | shiftRight
  deriving DecidableEq, Repr

/-- Whether an action takes the path of a file from the top of the stack. -/
def Action.usesFile : Action → Bool
  | .includeSource | .writeObject | .readObject => true
  | _ => false

/-- What a builtin word does. -/
inductive Builtin where
  | binary (op : BinaryOperator)
  | unary (word : UnaryWord)
  | action (a : Action)
  deriving DecidableEq, Repr

namespace Builtin

def binaryWords : List (String × BinaryOperator) :=
  [("+", .add), ("-", .sub), ("*", .mul), ("/", .div), ("==", .eq), ("!=", .ne), (">", .gt),
    (">=", .ge), ("<", .lt), ("<=", .le), ("mod", .mod), ("^", .pow)]

def unaryWords : List (String × UnaryWord) :=
  [("abs", .apply .abs), ("acos", .apply .acos), ("alog", .apply .exp10),
    ("asin", .apply .asin), ("atan", .apply .atan), ("conj", .apply .conj),
    ("cos", .apply .cos), ("exp", .apply .exp), ("frac", .apply .frac), ("im", .apply .im),
    ("inv", .apply .inv), ("ln", .apply .ln), ("log", .apply .log), ("neg", .apply .neg),
    ("re", .apply .re), ("sgn", .apply .sign), ("sin", .apply .sin), ("sq", .apply .sq),
    ("sqrt", .apply .sqrt), ("tan", .apply .tan), (">BIN", .convert .binary),
    (">CPX", .convert .complex), (">FLT", .convert .float), (">INT", .convert .integer),
    (">LST", .convert .list), (">MAT", .convert .matrix), (">RAT", .convert .rational),
    (">STR", .convert .string)]

def actionWords : List (String × Action) :=
  [("bin", .setBase .binary), ("clear", .clear), ("dec", .setBase .decimal),
    ("deg", .setAngle .degree), ("drop", .drop), ("dropn", .dropCount), ("dup", .duplicate),
    ("dupn", .duplicateCount), ("eng", .setFloat .engineering), ("eval", .includeSource),
    ("fix", .setFloat .fixed), ("grad", .setAngle .gradian), ("hex", .setBase .hexadecimal),
    ("info", .banner), ("oct", .setBase .octal), ("polar", .setComplex .polar),
    ("purge", .purge), ("rad", .setAngle .radian), ("read", .readObject),
    ("rec", .setComplex .rectangular), ("roll", .rollUp), ("rolld", .rollDown),
    ("rot", .rotate), ("run", .includeSource), ("sci", .setFloat .scientific), ("sto", .store),
    ("stws", .setWordSize), ("swap", .swap), ("write", .writeObject), ("sl", .shiftLeft),
    ("sr", .shiftRight), ("exit", .quitReminder), ("off", .quitReminder)]

/-- All builtin words. -/
def words : List String :=
  binaryWords.map Prod.fst ++ unaryWords.map Prod.fst ++ actionWords.map Prod.fst

/-- What a word does, if it is a builtin. -/
def ofWord? (w : String) : Option Builtin :=
  match binaryWords.lookup w with
  | some op => some (.binary op)
  | none =>
    match unaryWords.lookup w with
    | some u => some (.unary u)
    | none => (actionWords.lookup w).map .action

/-- No word is defined twice. -/
theorem nodup_words : words.Nodup := by
  decide

theorem ofWord?_eq_none_iff {w : String} : ofWord? w = none ↔ w ∉ words := by
  have hlookup {β : Type} (table : List (String × β)) :
      table.lookup w = none ↔ w ∉ table.map Prod.fst := by
    rw [List.lookup_eq_none_iff, List.mem_map]
    constructor
    · rintro h ⟨entry, hentry, rfl⟩
      exact absurd (h entry hentry) (by simp)
    · intro h entry hentry
      rw [bne_iff_ne]
      rintro rfl
      exact h ⟨entry, hentry, rfl⟩
  rw [words, List.mem_append, List.mem_append, not_or, not_or, ← hlookup, ← hlookup, ← hlookup,
    ofWord?]
  cases binaryWords.lookup w <;> cases unaryWords.lookup w <;> simp

end Builtin

/-- The word that ends the reading of words. -/
def quitWord : String := "quit"

theorem ofWord?_quitWord : Builtin.ofWord? quitWord = none := by
  decide

end RpnCalculator
