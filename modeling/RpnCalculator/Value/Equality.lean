import RpnCalculator.Value.Basic

/-!
# Equality of values

Two values are equal when they are of one kind and agree part by part.  Floats agree by
size, so a NaN anywhere makes a value differ from itself, and the two zeros agree.
Words agree when all their stored bits do; the width in force plays no part here.
-/

namespace RpnCalculator

namespace Value

mutual

/-- Whether two values are equal. -/
def equals : Value → Value → Bool
  | .binary a, .binary b => a == b
  | .complex z, .complex w => z.equals w
  | .directory d, .directory e => entriesEqual d e
  | .float x, .float y => x.equals y
  | .integer m, .integer n => m == n
  | .labeled k v, .labeled l w => k == l && equals v w
  | .list a, .list b => itemsEqual a b
  | .matrix a, .matrix b => rowsEqual a b
  | .program s, .program t => s == t
  | .rational p, .rational q => p.toRat == q.toRat
  | .string s, .string t => s == t
  | .vector a, .vector b => itemsEqual a b
  | _, _ => false

def itemsEqual : List Value → List Value → Bool
  | [], [] => true
  | v :: vs, w :: ws => equals v w && itemsEqual vs ws
  | _, _ => false

def rowsEqual : List (List Value) → List (List Value) → Bool
  | [], [] => true
  | r :: rs, s :: ss => itemsEqual r s && rowsEqual rs ss
  | _, _ => false

def entriesEqual : List (String × Value) → List (String × Value) → Bool
  | [], [] => true
  | (m, v) :: rest, (n, w) :: rest' => m == n && equals v w && entriesEqual rest rest'
  | _, _ => false

end

end Value

end RpnCalculator
