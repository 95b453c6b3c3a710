import RpnCalculator.Kind
import RpnCalculator.Operator
import RpnCalculator.Display
import RpnCalculator.Text.Utf8

/-!
# Faults

Everything that can go wrong is one of the causes below.  A cause holds the data that
its message shows, and nothing else; the wording is in the `message` functions alone.
`Fault.category` sorts the causes into the eight sorts that a user of the library can
tell apart without reading the message.
-/

namespace RpnCalculator

/-! ## Operands out of range -/

/-- An operand of the right kind for which an operation has no result. -/
inductive DomainFault where
  | zeroDenominator
  | raggedMatrix
  | notInLowestTerms
  | divisionByZero
  | exponentTooLarge
  | dimensionMismatch
  | notFinite
  | outsideUnitInterval
  | logarithmOfZero
  | negativeCount
  | countTooLarge
  | tooManyDecimals
  | wordSizeOutOfRange
  deriving DecidableEq, Repr

def DomainFault.message : DomainFault → String
  | .zeroDenominator => "Zero denominator"
  | .raggedMatrix => "Matrix rows differ in length"
  | .notInLowestTerms => "Rational is not in lowest terms"
  | .divisionByZero => "Division by zero"
  | .exponentTooLarge => "Exponent too large"
  | .dimensionMismatch => "Dimension mismatch"
  | .notFinite => "Value is not finite"
  | .outsideUnitInterval => "Argument outside [-1, 1]"
  | .logarithmOfZero => "Logarithm of zero"
  | .negativeCount => "Count must not be negative"
  | .countTooLarge => "Count too large"
  | .tooManyDecimals =>
    "At most " ++ Text.ofNat Display.maxDecimals ++ " decimals can be shown"
  | .wordSizeOutOfRange =>
    "Word size must be between 1 and " ++ Text.ofNat Display.maxWordSize ++ " bits"

/-! ## Files and stored objects -/

/-- Why the system refuses an operation on a file. -/
inductive SystemFault where
  | noSuchFile
  | inputOutput
  | busy
  | notADirectory
  | isADirectory
  | noSpace
  | nameTooLong
  | nulInName
  deriving DecidableEq, Repr

def SystemFault.message : SystemFault → String
  | .noSuchFile => "No such file or directory (os error 2)"
  | .inputOutput => "Input/output error (os error 5)"
  | .busy => "Device or resource busy (os error 16)"
  | .notADirectory => "Not a directory (os error 20)"
  | .isADirectory => "Is a directory (os error 21)"
  | .noSpace => "No space left on device (os error 28)"
  | .nameTooLong => "File name too long (os error 36)"
  | .nulInName => "file name contained an unexpected NUL byte"

/-- How the payload of a stored object fails to be a value. -/
inductive Corruption where
  /-- The payload ends inside a field of fixed size. -/
  | fieldCut
  /-- A text is longer than what is left of the payload. -/
  | textCut
  /-- A text is not UTF-8. -/
  | notText (fault : Utf8.Fault)
  | unknownVariant (index : Nat)
  | unknownSign (sign : Int)
  | zeroDenominator
  deriving DecidableEq, Repr

/-- A number where another was expected. -/
def Corruption.unexpected (found : Int) (expected : String) : String :=
  "invalid value: integer `" ++ Text.ofInt found ++ "`, expected " ++ expected

def Corruption.message : Corruption → String
  | .fieldCut => "io error: unexpected end of file"
  | .textCut => "io error: "
  | .notText fault => "string is not valid utf8: " ++ fault.message
  | .unknownVariant index => unexpected index "variant index 0 <= i < 12"
  | .unknownSign sign => unexpected sign "a sign of -1, 0, or 1"
  | .zeroDenominator => unexpected 0 "a ratio with non-zero denominator"

/-- Why an object cannot be stored or fetched, or a script not be read. -/
inductive StorageFault where
  | cannotOpen (path : String) (cause : SystemFault)
  | cannotRead (path : String) (cause : SystemFault)
  | cannotWrite (path : String) (cause : SystemFault)
  | notAnObject
  | lengthMismatch (header held : Nat)
  | unknownTag (tag : Nat)
  | corrupt (cause : Corruption)
  | wrongTag (tagged held : Kind)
  | flawed (cause : DomainFault)
  deriving DecidableEq, Repr

def StorageFault.message : StorageFault → String
  | .cannotOpen path cause => "Unable to open " ++ path ++ ": " ++ cause.message
  | .cannotRead path cause => "Unable to read " ++ path ++ ": " ++ cause.message
  | .cannotWrite path cause => "Unable to write " ++ path ++ ": " ++ cause.message
  | .notAnObject => "Not a Clac object file"
  | .lengthMismatch header held =>
    "Object length mismatch: header says " ++ Text.ofNat header ++ ", file holds " ++
      Text.ofNat held
  | .unknownTag tag => "Unknown object type tag " ++ Text.ofNat tag
  | .corrupt cause => "Corrupt object: " ++ cause.message
  | .wrongTag tagged held =>
    "Object tagged " ++ tagged.abbreviation ++ " holds a " ++ held.abbreviation
  | .flawed cause => "Corrupt object: " ++ cause.message

/-! ## All faults -/

/-- What an argument was expected to be. -/
inductive Expectation where
  | integer
  | string
  | binary
  | listOfRows
  | labeledEntry
  deriving DecidableEq, Repr

def Expectation.description : Expectation → String
  | .integer => "Integer"
  | .string => "String"
  | .binary => "Binary"
  | .listOfRows => "List of rows"
  | .labeledEntry => "Labeled entry"

/-- Why a word, a literal or an operation fails. -/
inductive Fault where
  /-- An operand is missing. -/
  | underflow
  /-- A stack that holds something holds too little. -/
  | tooShort (needed height : Nat)
  | unsupported (operation : Operation) (kind : Kind)
  | noConversion (source target : Kind)
  | noCommonKind (left right : Kind)
  | wrongKind (expected : Expectation) (found : Kind)
  | unrecognized (word : String)
  | domain (cause : DomainFault)
  | storage (cause : StorageFault)
  deriving DecidableEq, Repr

namespace Fault

def message : Fault → String
  | .underflow => "Stack underflow"
  | .tooShort needed height =>
    "Stack not high enough: need " ++ Text.ofNat needed ++ ", have " ++ Text.ofNat height
  | .unsupported operation kind =>
    "Unable to " ++ operation.description ++ " a " ++ kind.abbreviation ++ " object"
  | .noConversion source target =>
    "Unable to convert a " ++ source.abbreviation ++ " object to " ++ target.abbreviation
  | .noCommonKind left right =>
    "No implicit conversion between " ++ left.abbreviation ++ " and " ++
      right.abbreviation
  | .wrongKind expected found =>
    expected.description ++ " expected, found " ++ found.abbreviation
  | .unrecognized word => "Unrecognized word: " ++ word
  | .domain cause => cause.message
  | .storage cause => cause.message

/-- The sorts of fault. -/
inductive Category where
  | underflow
  | insufficientHeight
  | kindUnsupported
  | conversionUnavailable
  | typeMismatch
  | malformedLiteral
  | ioFailure
  | domain
  deriving DecidableEq, Repr

/-- The sort of a fault.  A missing operation and a missing conversion are one sort. -/
def category : Fault → Category
  | .underflow => .underflow
  | .tooShort .. => .insufficientHeight
  | .unsupported .. => .kindUnsupported
  | .noConversion .. => .kindUnsupported
  | .noCommonKind .. => .conversionUnavailable
  | .wrongKind .. => .typeMismatch
  | .unrecognized .. => .malformedLiteral
  | .domain .. => .domain
  | .storage .. => .ioFailure

end Fault

end RpnCalculator
