import Ancilla.Allocator
import Ancilla.Arithmetic.Adder
import Ancilla.Arithmetic.Error
import Ancilla.Arithmetic.Fourier
import Ancilla.Arithmetic.Lookahead
import Ancilla.Arithmetic.MeasuredAdder
import Ancilla.Arithmetic.Modular
import Ancilla.Arithmetic.NumberTheory
import Ancilla.Arithmetic.Shift
import Ancilla.Circuit.Basic
import Ancilla.Circuit.Graph
import Ancilla.Circuit.Layers
import Ancilla.Circuit.Listing
import Ancilla.Circuit.Resources
import Ancilla.Command.Files
import Ancilla.Command.Options
import Ancilla.Command.Report
import Ancilla.Command.Request
import Ancilla.Condition
import Ancilla.Decimal.Binary
import Ancilla.Decimal.Fixed
import Ancilla.Decimal.Reading
import Ancilla.Decimal.Shortest
import Ancilla.Expr
import Ancilla.Gate.Adjoint
import Ancilla.Gate.Basic
import Ancilla.Instruction
import Ancilla.Markup.Cursor
import Ancilla.Markup.Node
import Ancilla.Markup.Scalar
import Ancilla.Markup.Tag
import Ancilla.Markup.Token
import Ancilla.Ordered
import Ancilla.QubitSet
import Ancilla.Reply
import Ancilla.Resource
import Ancilla.Scalar
import Ancilla.Session.Basic
import Ancilla.Session.Build
import Ancilla.Session.Frame
import Ancilla.Session.Iteration
import Ancilla.Simulation.Amplitude
import Ancilla.Simulation.Kernel
import Ancilla.Simulation.Random
import Ancilla.Simulation.Settings
import Ancilla.Simulation.SettingsText
import Ancilla.Simulation.Simulator
import Ancilla.Simulation.StateVector
import Ancilla.Simulation.Symbolic
import Ancilla.Simulation.Trajectory
import Ancilla.Stored.Circuit
import Ancilla.Stored.Datum
import Ancilla.Stored.Gate
import Ancilla.Stored.Settings
import Ancilla.Stored.Text
import Ancilla.Text.Blank
import Ancilla.Text.Case
import Ancilla.Text.CaseIgnorable
import Ancilla.Text.Cased
import Ancilla.Text.Digits
import Ancilla.Text.Quoted
import Ancilla.Text.Unprintable
import Ancilla.Variable.Basic
import Ancilla.Variable.Decoder
import Ancilla.Variable.Measurement
import Ancilla.Wire
import Ancilla.Word
import Ancilla.Main
import Ancilla.Proofs.Allocator
import Ancilla.Proofs.Pool
import Ancilla.Proofs.Session.Answers
import Ancilla.Proofs.Session.Ownership
import Ancilla.Proofs.Session.Partition
import Ancilla.Proofs.Session.Closing
import Ancilla.Proofs.Session.Sound
import Ancilla.Proofs.Sets
import Ancilla.Proofs.Session.Pending
import Ancilla.Proofs.Circuit.Basis
import Ancilla.Proofs.Session.Trail
import Ancilla.Proofs.Session.Leaks
import Ancilla.Proofs.Simulation.Kernel
import Ancilla.Proofs.Simulation.Exact
import Ancilla.Proofs.Simulation.Gates
import Ancilla.Proofs.Simulation.Lowering
import Ancilla.Proofs.Simulation.Inverses
import Ancilla.Proofs.Circuit.Wires
import Ancilla.Proofs.Session.Growth
import Ancilla.Proofs.Session.Program
import Ancilla.Proofs.Session.Meaning
import Ancilla.Proofs.Circuit.Splicing
import Ancilla.Proofs.Session.Equipment
import Ancilla.Proofs.Session.Refusals
import Ancilla.Proofs.Session.Outcome
import Ancilla.Proofs.Session.Uncomputing
import Ancilla.Proofs.Session.Unwinding
import Ancilla.Proofs.Session.Placing
import Ancilla.Proofs.Simulation.BasisStates
import Ancilla.Proofs.Session.Realizing
import Ancilla.Proofs.Session.Borrowing
import Ancilla.Proofs.Session.Steady
import Ancilla.Proofs.Session.Feedback
import Ancilla.Proofs.Session.Lending
import Ancilla.Proofs.Arithmetic.Fourier
import Ancilla.Proofs.Arithmetic.NumberTheory
import Ancilla.Proofs.Arithmetic.Modular
import Ancilla.Proofs.Arithmetic.Power
import Ancilla.Proofs.Circuit.Threads
import Ancilla.Proofs.Circuit.Paths
import Ancilla.Proofs.Session.Ledger
import Ancilla.Proofs.Session.Timeline
import Ancilla.Proofs.Session.Lifecycle
import Ancilla.Proofs.Simulation.Locality
import Ancilla.Proofs.Simulation.Reordering
import Ancilla.Proofs.Expr
import Ancilla.Proofs.Simulation.Symbolic
import Ancilla.Proofs.Simulation.Projection
import Ancilla.Proofs.Simulation.Isometry
import Ancilla.Proofs.Simulation.Normalization
import Ancilla.Proofs.Circuit.Sealing
import Ancilla.Proofs.Arithmetic.Rejection
import Ancilla.Proofs.Arithmetic.Shift
import Ancilla.Proofs.Arithmetic.Conjunction
import Ancilla.Proofs.Arithmetic.Carries
import Ancilla.Proofs.Session.Conjugating
import Ancilla.Proofs.Arithmetic.Adder
import Ancilla.Proofs.Arithmetic.Lookahead
import Ancilla.Proofs.Arithmetic.MeasuredAdder
import Ancilla.Proofs.Arithmetic.Multiplication
import Ancilla.Proofs.Session.Iteration
import Ancilla.Proofs.Arithmetic.PhaseAddition
import Ancilla.Proofs.Gate.Adjoint
import Ancilla.Proofs.Simulation.Measuring
import Ancilla.Proofs.Variable.Decoder
import Ancilla.Proofs.Session.Relaying
import Ancilla.Proofs.Variable.Initialization
import Ancilla.Proofs.Circuit.Levels
import Ancilla.Proofs.Simulation.Sampling
import Ancilla.Proofs.Arithmetic.ShiftCost
import Ancilla.Proofs.Circuit.Layering
import Ancilla.Proofs.Session.Limits
import Ancilla.Proofs.Arithmetic.LookaheadDepth
import Ancilla.Proofs.Arithmetic.Inversion
import Ancilla.Proofs.Gate.Lifting
