import ObjectMachine.Action
import ObjectMachine.Callers
import ObjectMachine.Class.Basic
import ObjectMachine.Class.Members
import ObjectMachine.Class.Method
import ObjectMachine.Fault
import ObjectMachine.Floating.Arithmetic
import ObjectMachine.Floating.Layout
import ObjectMachine.Floating.Shortest
import ObjectMachine.Frame
import ObjectMachine.Heap
import ObjectMachine.Host
import ObjectMachine.Image.Cursor
import ObjectMachine.Image.Decode
import ObjectMachine.Image.Encode
import ObjectMachine.Image.Fault
import ObjectMachine.Image.Record
import ObjectMachine.Instruction
import ObjectMachine.Machine.Basic
import ObjectMachine.Machine.Builder
import ObjectMachine.Machine.Invoke
import ObjectMachine.Machine.Link
import ObjectMachine.Opcode
import ObjectMachine.Program
import ObjectMachine.Proofs.Acceptance
import ObjectMachine.Proofs.Actions
import ObjectMachine.Proofs.Arguments
import ObjectMachine.Proofs.ArrayStore
import ObjectMachine.Proofs.Budget
import ObjectMachine.Proofs.Building
import ObjectMachine.Proofs.Cells
import ObjectMachine.Proofs.Comparison
import ObjectMachine.Proofs.Computation
import ObjectMachine.Proofs.Confinement
import ObjectMachine.Proofs.Dispatch
import ObjectMachine.Proofs.Effects
import ObjectMachine.Proofs.Handlers
import ObjectMachine.Proofs.Histories
import ObjectMachine.Proofs.Immediates
import ObjectMachine.Proofs.Inheritance
import ObjectMachine.Proofs.Instructions
import ObjectMachine.Proofs.Layout
import ObjectMachine.Proofs.Limits
import ObjectMachine.Proofs.Linking
import ObjectMachine.Proofs.Lossless
import ObjectMachine.Proofs.Nesting
import ObjectMachine.Proofs.Numerals
import ObjectMachine.Proofs.ObjectStore
import ObjectMachine.Proofs.Operands
import ObjectMachine.Proofs.Reachable
import ObjectMachine.Proofs.Reading
import ObjectMachine.Proofs.Registration
import ObjectMachine.Proofs.Rejection
import ObjectMachine.Proofs.Requests
import ObjectMachine.Proofs.Runs
import ObjectMachine.Proofs.Safety
import ObjectMachine.Proofs.Saturation
import ObjectMachine.Proofs.Scanning
import ObjectMachine.Proofs.Scripts
import ObjectMachine.Proofs.Sections
import ObjectMachine.Proofs.Sessions
import ObjectMachine.Proofs.Slots
import ObjectMachine.Proofs.Spelling
import ObjectMachine.Proofs.Table
import ObjectMachine.Proofs.Truncation
import ObjectMachine.Proofs.Trusting
import ObjectMachine.Proofs.TypeTests
import ObjectMachine.Proofs.Worlds
import ObjectMachine.Proofs.Writes
import ObjectMachine.Registry
import ObjectMachine.Run
import ObjectMachine.Signature
import ObjectMachine.Stack
import ObjectMachine.Step
import ObjectMachine.Text.Numeral
import ObjectMachine.Text.Quoted
import ObjectMachine.Text.Utf8
import ObjectMachine.Trace
import ObjectMachine.Value.Arithmetic
import ObjectMachine.Value.Basic
import ObjectMachine.Value.Text
