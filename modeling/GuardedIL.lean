import GuardedIL.Diagnostic
import GuardedIL.Draft
import GuardedIL.Exemptions
import GuardedIL.Machine.Arith
import GuardedIL.Machine.Frame
import GuardedIL.Machine.Host
import GuardedIL.Machine.Step
import GuardedIL.Machine.Trap
import GuardedIL.Machine.Value
import GuardedIL.Overflow.Candidate
import GuardedIL.Overflow.FreshNames
import GuardedIL.Overflow.Guard
import GuardedIL.Overflow.Predicate
import GuardedIL.Overflow.Program
import GuardedIL.Pipeline.Analyses
import GuardedIL.Pipeline.OverflowPass
import GuardedIL.Pipeline.Script
import GuardedIL.Pipeline.Setup
import GuardedIL.Syntax.Opcode
import GuardedIL.Syntax.Operand
import GuardedIL.Syntax.Printer
import GuardedIL.Syntax.Program
import GuardedIL.Syntax.Ty
import GuardedIL.Text
import GuardedIL.Text.Literal
import GuardedIL.Text.Sorting
import GuardedIL.Typing.Error
import GuardedIL.Typing.Instr
import GuardedIL.Typing.Program
import GuardedIL.Typing.Scope
import GuardedIL.Word
import GuardedIL.Proofs.Schedules
import GuardedIL.Proofs.Exactness
import GuardedIL.Proofs.Accepted
import GuardedIL.Proofs.FreshNames
import GuardedIL.Proofs.Lowering
import GuardedIL.Proofs.Layout
import GuardedIL.Proofs.Preservation
import GuardedIL.Proofs.Check
import GuardedIL.Proofs.Mirror
import GuardedIL.Proofs.Simulation
import GuardedIL.Proofs.CheckedMachine
import GuardedIL.Proofs.Runs
import GuardedIL.Proofs.Words
import GuardedIL.Proofs.Soundness
import GuardedIL.Proofs.Strategies
import GuardedIL.Proofs.Containment
import GuardedIL.Proofs.Walk
import GuardedIL.Proofs.Idempotence
import GuardedIL.Proofs.Registers
import GuardedIL.Proofs.HandlerArguments
import GuardedIL.Proofs.Literals
import GuardedIL.Proofs.Exemptions
import GuardedIL.Proofs.Caching
import GuardedIL.Proofs.Refusal
import GuardedIL.Proofs.Untouched
import GuardedIL.Proofs.ExemptionText
import GuardedIL.Proofs.SaneArithmetic
import GuardedIL.Proofs.BitVectors
import GuardedIL.Proofs.SingleAssignment
import GuardedIL.Proofs.Bytes
import GuardedIL.Proofs.Sorting
import GuardedIL.Proofs.OperandText
import GuardedIL.Proofs.CanonicalText
import GuardedIL.Proofs.NameSupply
import GuardedIL.Proofs.Narrowing
