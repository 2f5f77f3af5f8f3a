import ObjectMachine.Bootstrap
import ObjectMachine.Builtin
import ObjectMachine.Channel
import ObjectMachine.Code.Assembly
import ObjectMachine.Code.Draft
import ObjectMachine.Code.Instruction
import ObjectMachine.Code.Opcode
import ObjectMachine.CommandLine
import ObjectMachine.Construction
import ObjectMachine.Demo
import ObjectMachine.Dispatch
import ObjectMachine.Fault
import ObjectMachine.Forwarding
import ObjectMachine.Growth
import ObjectMachine.Heap.Basic
import ObjectMachine.Heap.Collection
import ObjectMachine.Heap.Space
import ObjectMachine.Heap.Validation
import ObjectMachine.Interpreter.Frames
import ObjectMachine.Interpreter.Run
import ObjectMachine.Interpreter.State
import ObjectMachine.Interpreter.Step
import ObjectMachine.Kind
import ObjectMachine.Log
import ObjectMachine.Machine.Basic
import ObjectMachine.Machine.Code
import ObjectMachine.Machine.Globals
import ObjectMachine.Main
import ObjectMachine.Object
import ObjectMachine.Plain
import ObjectMachine.Proofs.Activation
import ObjectMachine.Proofs.Allocation
import ObjectMachine.Proofs.Answering
import ObjectMachine.Proofs.Assembling
import ObjectMachine.Proofs.Attaching
import ObjectMachine.Proofs.Bootstrap
import ObjectMachine.Proofs.Bringing
import ObjectMachine.Proofs.Building
import ObjectMachine.Proofs.Calls
import ObjectMachine.Proofs.Checks
import ObjectMachine.Proofs.Coherence
import ObjectMachine.Proofs.Collection
import ObjectMachine.Proofs.Conditions
import ObjectMachine.Proofs.Copying
import ObjectMachine.Proofs.Crews
import ObjectMachine.Proofs.Crossing
import ObjectMachine.Proofs.Emissions
import ObjectMachine.Proofs.Encoding
import ObjectMachine.Proofs.Ending
import ObjectMachine.Proofs.Equality
import ObjectMachine.Proofs.Estimates
import ObjectMachine.Proofs.Execution
import ObjectMachine.Proofs.Fields
import ObjectMachine.Proofs.Forming
import ObjectMachine.Proofs.Forwarders
import ObjectMachine.Proofs.Framing
import ObjectMachine.Proofs.Grammar
import ObjectMachine.Proofs.Handles
import ObjectMachine.Proofs.Handovers
import ObjectMachine.Proofs.Hashing
import ObjectMachine.Proofs.Hauling
import ObjectMachine.Proofs.Heights
import ObjectMachine.Proofs.Histories
import ObjectMachine.Proofs.Hosting
import ObjectMachine.Proofs.Image
import ObjectMachine.Proofs.Instructions
import ObjectMachine.Proofs.Integers
import ObjectMachine.Proofs.Interruption
import ObjectMachine.Proofs.Library
import ObjectMachine.Proofs.Lines
import ObjectMachine.Proofs.Lookup
import ObjectMachine.Proofs.Machines
import ObjectMachine.Proofs.Marks
import ObjectMachine.Proofs.Moving
import ObjectMachine.Proofs.ParkedStack
import ObjectMachine.Proofs.Pictures
import ObjectMachine.Proofs.Printing
import ObjectMachine.Proofs.Probing
import ObjectMachine.Proofs.Queueing
import ObjectMachine.Proofs.Retries
import ObjectMachine.Proofs.Returning
import ObjectMachine.Proofs.Shortage
import ObjectMachine.Proofs.Sizing
import ObjectMachine.Proofs.Soundness
import ObjectMachine.Proofs.Stepping
import ObjectMachine.Proofs.Strides
import ObjectMachine.Proofs.Succession
import ObjectMachine.Proofs.Switching
import ObjectMachine.Proofs.Tables
import ObjectMachine.Proofs.Tasks
import ObjectMachine.Proofs.Tending
import ObjectMachine.Proofs.Tickets
import ObjectMachine.Proofs.Trials
import ObjectMachine.Proofs.Validity
import ObjectMachine.Proofs.Walks
import ObjectMachine.References
import ObjectMachine.Rendering
import ObjectMachine.Roots
import ObjectMachine.Session.Answer
import ObjectMachine.Session.Basic
import ObjectMachine.Session.Command
import ObjectMachine.Session.Inspection
import ObjectMachine.Session.Objects
import ObjectMachine.Session.Probe
import ObjectMachine.Session.Programs
import ObjectMachine.Session.Queue
import ObjectMachine.Session.Run
import ObjectMachine.Session.Storage
import ObjectMachine.Session.Term
import ObjectMachine.Settings
import ObjectMachine.Signal
import ObjectMachine.Stack.Basic
import ObjectMachine.Stack.Relocation
import ObjectMachine.Store
import ObjectMachine.Structural
import ObjectMachine.Table
import ObjectMachine.Text.Address
import ObjectMachine.Text.Printable
import ObjectMachine.Text.Quoted
import ObjectMachine.Value
import ObjectMachine.Word
import ObjectMachine.WorkQueue
