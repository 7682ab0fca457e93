import BytecodeMachine.Image.Draft
import BytecodeMachine.Main
import BytecodeMachine.Proofs.Action
import BytecodeMachine.Proofs.Stack
import BytecodeMachine.Proofs.Machine.Reach
import BytecodeMachine.Proofs.Machine.Trade
import BytecodeMachine.Proofs.Machine.Linkage
import BytecodeMachine.Proofs.Machine.History
import BytecodeMachine.Proofs.Machine.Activations
import BytecodeMachine.Proofs.Machine.CallDiscipline
import BytecodeMachine.Proofs.Machine.Accounts
import BytecodeMachine.Proofs.Fault
import BytecodeMachine.Proofs.Heap
import BytecodeMachine.Proofs.Machine.Sound
import BytecodeMachine.Proofs.Machine.Safety
import BytecodeMachine.Proofs.Heap.Print
import BytecodeMachine.Proofs.Machine.References
import BytecodeMachine.Proofs.Image.Layout
import BytecodeMachine.Proofs.Image.Detection
import BytecodeMachine.Proofs.Instruction.Decode
import BytecodeMachine.Proofs.Instruction.Language
import BytecodeMachine.Proofs.Stack.Live
import BytecodeMachine.Proofs.Stack.Request
import BytecodeMachine.Proofs.Machine.Registers
import BytecodeMachine.Proofs.Machine.Bounds
import BytecodeMachine.Proofs.Heap.Shape
import BytecodeMachine.Proofs.Machine.Refusal
import BytecodeMachine.Proofs.Machine.Growth
import BytecodeMachine.Proofs.Machine.Footprint
import BytecodeMachine.Proofs.Machine.Turns
import BytecodeMachine.Proofs.Machine.Faults
import BytecodeMachine.Proofs.Listing
import BytecodeMachine.Proofs.Word
import BytecodeMachine.Proofs.Machine.Numbers
import BytecodeMachine.Proofs.Machine.Destinations
import BytecodeMachine.Proofs.Machine.Listed
import BytecodeMachine.Proofs.Image.Truncation
import BytecodeMachine.Proofs.Machine.Effect
import BytecodeMachine.Proofs.Simulation
import BytecodeMachine.Proofs.Image.Extension
import BytecodeMachine.Proofs.Machine.Progress
import BytecodeMachine.Proofs.Machine.Correspondence
import BytecodeMachine.Proofs.Machine.Extension
import BytecodeMachine.Proofs.Console
import BytecodeMachine.Proofs.Machine.InputLayout
import BytecodeMachine.Proofs.Machine.HostDefaults
import BytecodeMachine.Proofs.Machine.Variables
import BytecodeMachine.Proofs.Machine.FreshFrames
import BytecodeMachine.Proofs.Heap.Access
import BytecodeMachine.Proofs.Machine.NewObjects
import BytecodeMachine.Proofs.Machine.Captures
import BytecodeMachine.Proofs.Machine.LastArgument
import BytecodeMachine.Proofs.Machine.Aggregates
import BytecodeMachine.Proofs.Action.Series
import BytecodeMachine.Proofs.Stack.BoundedList
import BytecodeMachine.Proofs.Text.Utf8
import BytecodeMachine.Proofs.Tag
import BytecodeMachine.Proofs.Console.Delivery
import BytecodeMachine.Proofs.Heap.Chain
import BytecodeMachine.Proofs.Heap.Unfolding
import BytecodeMachine.Proofs.Instruction.Targets
import BytecodeMachine.Proofs.Image.Interning
import BytecodeMachine.Proofs.Listing.Frequency
import BytecodeMachine.Proofs.Machine.Arithmetic
import BytecodeMachine.Proofs.Machine.Separation
import BytecodeMachine.Proofs.Machine.Indirection
import BytecodeMachine.Proofs.Heap.Elements
import BytecodeMachine.Proofs.Heap.Fields
import BytecodeMachine.Proofs.Heap.Allocation
import BytecodeMachine.Proofs.Heap.LongChain
import BytecodeMachine.Proofs.Text.Decimal
import BytecodeMachine.Proofs.Console.RoundTrip
import BytecodeMachine.Proofs.Text.Hexadecimal
import BytecodeMachine.Proofs.Text.Lossy
import BytecodeMachine.Proofs.Listing.Reading
import BytecodeMachine.Proofs.Listing.Iterations
