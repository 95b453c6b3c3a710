import RpnCalculator.Kind
import RpnCalculator.Display
import RpnCalculator.Number.Notation
import RpnCalculator.Number.Complex
import RpnCalculator.Number.Fraction
import RpnCalculator.Text.Lines
import RpnCalculator.Text.Utf8
import RpnCalculator.Text.Numeral
import RpnCalculator.Fault
import RpnCalculator.Directory
import RpnCalculator.Value.WellFormed
import RpnCalculator.Value.Arithmetic
import RpnCalculator.Value.Functions
import RpnCalculator.Literal
import RpnCalculator.Source
import RpnCalculator.Stack
import RpnCalculator.CommandLine
import RpnCalculator.Main
import RpnCalculator.Value.Conversion
import RpnCalculator.Proofs.Machine.Atomicity
import RpnCalculator.Proofs.Machine.Reachable
import RpnCalculator.Proofs.Machine.Inlining
import RpnCalculator.Proofs.Machine.Script
import RpnCalculator.Proofs.Value.Tower
import RpnCalculator.Proofs.Value.Visible
import RpnCalculator.Proofs.Value.Blindness
import RpnCalculator.Proofs.Machine.Frame
import RpnCalculator.Proofs.Machine.Presentation
import RpnCalculator.Proofs.Literal.Grammar
import RpnCalculator.Proofs.Guard.Machine
import RpnCalculator.Proofs.Value.Power
import RpnCalculator.Proofs.Machine.Reentry
import RpnCalculator.Proofs.Machine.Persistence
import RpnCalculator.Proofs.Machine.Variables
import RpnCalculator.Proofs.Object.Spelling
import RpnCalculator.Proofs.CommandLine.Reports
import RpnCalculator.Proofs.Value.SquareRoot
import RpnCalculator.Proofs.Value.Product
import RpnCalculator.Proofs.Value.Comparison
import RpnCalculator.Proofs.Value.Faults
import RpnCalculator.Proofs.Number.Truncation
import RpnCalculator.Proofs.Value.Commutation
import RpnCalculator.Proofs.Value.Aggregate
import RpnCalculator.Proofs.Value.FieldLaws
import RpnCalculator.Proofs.Number.Machine
import RpnCalculator.Proofs.Number.Operations
import RpnCalculator.Proofs.Number.Powers
import RpnCalculator.Proofs.Number.NaturalLogarithm
import RpnCalculator.Proofs.Number.CommonLogarithm
import RpnCalculator.Proofs.Number.Notation
import RpnCalculator.Proofs.Value.Engineering
import RpnCalculator.Proofs.Text.Calls
import RpnCalculator.Proofs.Text.Spacing
import RpnCalculator.Proofs.Text.Queue
import RpnCalculator.Proofs.Machine.Counted
import RpnCalculator.Proofs.Literal.Finite
