import Lowering.NameMap
import Lowering.OrderedSet
import Lowering.OrderedSet.Memory
import Lowering.Text.Utf8
import Lowering.Text.Printable
import Lowering.Text.Quoted
import Lowering.Wire
import Lowering.Tag
import Lowering.Instr
import Lowering.Listing
import Lowering.Expr.Basic
import Lowering.Expr.Kind
import Lowering.Dispatch
import Lowering.Fragment
import Lowering.Label
import Lowering.Env.Basic
import Lowering.Env.Session
import Lowering.Env.Memory
import Lowering.Capture
import Lowering.Failure
import Lowering.Lower.Basic
import Lowering.Lower.Expr
import Lowering.Lower.Program
import Lowering.Json.Basic
import Lowering.Json.Parser
import Lowering.Expr.TaggedArray
import Lowering.Compile
import Lowering.Expr.Record
import Lowering.Command.Files
import Lowering.Command.Workspace
import Lowering.Command.Arguments
import Lowering.Command.Run
import Lowering.Main
import Lowering.Machine
import Lowering.Expr.Eval
import Lowering.Expr.Free
import Lowering.Expr.Parts
import Lowering.Expr.Shapes
import Lowering.Expr.Nameless
import Lowering.Proofs.Registers
import Lowering.Proofs.Registry
import Lowering.Proofs.State
import Lowering.Proofs.Captures
import Lowering.Proofs.KeyHistory
import Lowering.Proofs.Spine
import Lowering.Proofs.Rules
import Lowering.Proofs.Pieces
import Lowering.Proofs.LabelText
import Lowering.Proofs.ProgramRules
import Lowering.Proofs.Labels
import Lowering.Proofs.Scoping
import Lowering.Proofs.ScopeKept
import Lowering.Proofs.Nameless
import Lowering.Proofs.InStep
import Lowering.Proofs.Renaming
import Lowering.Proofs.Sites
import Lowering.Proofs.ClosureLayout
import Lowering.Proofs.Execution
import Lowering.Proofs.Representation
import Lowering.Proofs.Calling
import Lowering.Proofs.Evaluation
import Lowering.Proofs.Constructs
import Lowering.Proofs.Branching
import Lowering.Proofs.Meaning
import Lowering.Proofs.Blocks
import Lowering.Proofs.Frames
import Lowering.Proofs.Appending
import Lowering.Proofs.Operands
import Lowering.Proofs.Dataflow
import Lowering.Proofs.Written
import Lowering.Proofs.FreshRegisters
import Lowering.Proofs.Separation
import Lowering.Proofs.TagOrder
import Lowering.Proofs.TagWords
import Lowering.Proofs.DispatchModes
import Lowering.Json.Grammar
import Lowering.Expr.TaggedForm
import Lowering.Expr.NodeForm
import Lowering.Proofs.JsonText
import Lowering.Proofs.JsonReading
import Lowering.Proofs.Utf8Text
import Lowering.Proofs.Decoding
import Lowering.Proofs.Words
import Lowering.Proofs.Readers
import Lowering.Proofs.FirstFault
import Lowering.Proofs.Pipeline
import Lowering.Proofs.TagHistory
import Lowering.Proofs.ListingText
import Lowering.Proofs.CaseDispatch
import Lowering.Proofs.ObjectsFilled
import Lowering.Proofs.SessionHistory
import Lowering.Proofs.EnvAddresses
import Lowering.Proofs.NestedShadowing
import Lowering.Proofs.WireForms
import Lowering.Proofs.WorkspaceFiles
import Lowering.Proofs.CompileCommand
