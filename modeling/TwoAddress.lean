import TwoAddress.Word
import TwoAddress.Text.Blank
import TwoAddress.Text.Lines
import TwoAddress.Text.Numeral
import TwoAddress.Text.Terminal
import TwoAddress.Opcode
import TwoAddress.Opcode.Tables
import TwoAddress.Operand
import TwoAddress.Instruction
import TwoAddress.Assembly.Printer
import TwoAddress.Assembly.Fault
import TwoAddress.Assembly.Address
import TwoAddress.Assembly.Reader
import TwoAddress.Assembly.Listing
import TwoAddress.Target
import TwoAddress.Carry.Link
import TwoAddress.Carry.Demand
import TwoAddress.Carry.Tracker
import TwoAddress.Error
import TwoAddress.Plan
import TwoAddress.Emission
import TwoAddress.Event
import TwoAddress.Traced
import TwoAddress.Block
import TwoAddress.Lowering
import TwoAddress.Pool
import TwoAddress.Lowering.Blocks
import TwoAddress.Metrics
import TwoAddress.Json.Basic
import TwoAddress.Json.Token
import TwoAddress.Json.Reader
import TwoAddress.Json.Printer
import TwoAddress.Json.Record
import TwoAddress.Codec.Instruction
import TwoAddress.Codec.Block
import TwoAddress.Codec.Descriptor
import TwoAddress.Command
import TwoAddress.Main
import TwoAddress.Proofs.Except
import TwoAddress.Proofs.Opcode.Tables
import TwoAddress.Proofs.Lowering.Strategy
import TwoAddress.Proofs.Lowering.Native
import TwoAddress.Proofs.Carry.Chain
import TwoAddress.Proofs.Carry.Demand
import TwoAddress.Proofs.Carry.Group
import TwoAddress.Proofs.Carry.Fault
import TwoAddress.Proofs.Lowering.Items
import TwoAddress.Proofs.Lowering.Acceptance
import TwoAddress.Proofs.Lowering.Addresses
import TwoAddress.Proofs.Lowering.Legal
import TwoAddress.Proofs.Lowering.Capability
import TwoAddress.Proofs.Lowering.FixedPoint
import TwoAddress.Proofs.Carry.Report
import TwoAddress.Proofs.Carry.History
import TwoAddress.Proofs.Lowering.Diagnosis
import TwoAddress.Proofs.Machine.State
import TwoAddress.Proofs.Machine.Step
import TwoAddress.Proofs.Machine.Address
import TwoAddress.Proofs.Machine.Emitted
import TwoAddress.Proofs.Machine.Simulation
import TwoAddress.Proofs.Machine.Carried
import TwoAddress.Proofs.Machine.Preservation
import TwoAddress.Proofs.Lowering.Completeness
import TwoAddress.Proofs.Pool.Partition
import TwoAddress.Proofs.Pool.Turns
import TwoAddress.Proofs.Pool.Reports
import TwoAddress.Proofs.Lowering.Parallel
import TwoAddress.Proofs.Lowering.Concatenation
import TwoAddress.Proofs.Text.Numeral
import TwoAddress.Proofs.Text.Integer
import TwoAddress.Proofs.Text.Words
import TwoAddress.Proofs.Text.Lines
import TwoAddress.Proofs.Assembly.Normal
import TwoAddress.Proofs.Assembly.Sum
import TwoAddress.Proofs.Assembly.Mnemonic
import TwoAddress.Proofs.Assembly.RoundTrip
import TwoAddress.Proofs.Assembly.Lowered
import TwoAddress.Proofs.Assembly.Listing
import TwoAddress.Proofs.Assembly.Printed
import TwoAddress.Proofs.Assembly.Cut
import TwoAddress.Proofs.Assembly.Grammar
import TwoAddress.Proofs.Machine.ScaledSum
import TwoAddress.Proofs.Assembly.Summands
import TwoAddress.Proofs.Machine.FusedSum
import TwoAddress.Proofs.Json.Quoted
import TwoAddress.Proofs.Json.Tokens
import TwoAddress.Proofs.Json.RoundTrip
import TwoAddress.Proofs.Codec.Lossless
import TwoAddress.Proofs.Codec.Descriptor
import TwoAddress.Proofs.Metrics.Tally
import TwoAddress.Proofs.Metrics.Lines
import TwoAddress.Proofs.Lowering.Counters
import TwoAddress.Proofs.Lowering.Renaming
import TwoAddress.Proofs.Lowering.Permutation
import TwoAddress.Proofs.Command.Run
import TwoAddress.Proofs.Command.Dump
import TwoAddress.Proofs.Command.Listing
import TwoAddress.Proofs.Command.Accounts
import TwoAddress.Proofs.Command.Printed
