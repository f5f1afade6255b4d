import Lowering.Analysis
import Lowering.Argument
import Lowering.Artifact.Binary
import Lowering.Artifact.Constant
import Lowering.Artifact.Document
import Lowering.Artifact.Format
import Lowering.Artifact.Json
import Lowering.Batch
import Lowering.Cbor.Decode
import Lowering.Cbor.Item
import Lowering.Cbor.Precision
import Lowering.Command.Flag
import Lowering.Command.Line
import Lowering.Command.Perform
import Lowering.Command.Settings
import Lowering.Command.World
import Lowering.Configuration
import Lowering.Configuration.Dotenv
import Lowering.Configuration.Json
import Lowering.Configuration.Source
import Lowering.Configuration.Toml
import Lowering.Configuration.Toml.Expression
import Lowering.Configuration.Toml.Moment
import Lowering.Configuration.Toml.Names
import Lowering.Configuration.Toml.Number
import Lowering.Configuration.Toml.Text
import Lowering.Decimal.Integer
import Lowering.Decimal.Layout
import Lowering.Decimal.Nearest
import Lowering.Decimal.Power
import Lowering.Decimal.Shortest
import Lowering.Disassembly
import Lowering.Fault
import Lowering.Guest.Bound
import Lowering.Guest.Dialect
import Lowering.Guest.Expansion
import Lowering.Guest.Flow
import Lowering.Guest.Function
import Lowering.Guest.Opcode
import Lowering.Guest.Operator
import Lowering.Guest.Plan
import Lowering.Heap
import Lowering.Heap.Equality
import Lowering.Heap.Text
import Lowering.Host.Builder
import Lowering.Host.Depths
import Lowering.Host.Operation
import Lowering.Host.Routine
import Lowering.Listing.Build
import Lowering.Listing.Document
import Lowering.Log
import Lowering.Lowered
import Lowering.Machine.Arithmetic
import Lowering.Machine.Builtins
import Lowering.Machine.Exponential
import Lowering.Machine.Fault
import Lowering.Machine.Observer
import Lowering.Machine.Run
import Lowering.Machine.StandardHelper
import Lowering.Machine.State
import Lowering.Main
import Lowering.Shape.Slot
import Lowering.Shape.Stack
import Lowering.Text.Blank
import Lowering.Text.Color
import Lowering.Text.Printable
import Lowering.Text.Quoted
import Lowering.Text.Stray
import Lowering.Text.Table
import Lowering.Text.Units
import Lowering.Timestamp
import Lowering.Value
import Lowering.Version
import Lowering.Word
import Lowering.Yaml.Base64
import Lowering.Yaml.Data
import Lowering.Yaml.Date
import Lowering.Yaml.Encoding
import Lowering.Yaml.Filling
import Lowering.Yaml.Glyph
import Lowering.Yaml.Lexer
import Lowering.Yaml.Meaning
import Lowering.Yaml.Node
import Lowering.Yaml.Reading
import Lowering.Yaml.Scalar
import Lowering.Yaml.Tag
import Lowering.Yaml.Token
import Lowering.Proofs.DepthSafety
import Lowering.Proofs.Builders
import Lowering.Proofs.Charts
import Lowering.Proofs.Executions
import Lowering.Proofs.FunctionChart
import Lowering.Proofs.Protection
import Lowering.Proofs.ShapeSafety
import Lowering.Proofs.ControlFlow
import Lowering.Proofs.Discipline
import Lowering.Proofs.LegacyDispatch
import Lowering.Proofs.ModernDispatch
import Lowering.Proofs.PostFixpoint
import Lowering.Proofs.HostDepths
import Lowering.Proofs.Confluence
import Lowering.Proofs.Origins
import Lowering.Proofs.Invocations
import Lowering.Proofs.WellFormed
import Lowering.Proofs.Items
import Lowering.Proofs.Joins
import Lowering.Proofs.Monotonicity
import Lowering.Proofs.Documents
import Lowering.Proofs.Histories
import Lowering.Proofs.Observation
import Lowering.Proofs.StepLimits
import Lowering.Proofs.Batches
import Lowering.Proofs.Duration
import Lowering.Proofs.Paths
import Lowering.Proofs.References
import Lowering.Proofs.Agreement
import Lowering.Proofs.BlockStacks
import Lowering.Proofs.ScratchLocals
import Lowering.Proofs.Extents
import Lowering.Proofs.HandlerTable
import Lowering.Proofs.OriginSteps
import Lowering.Proofs.HandlerOffsets
import Lowering.Proofs.ExceptionTables
import Lowering.Proofs.Comparisons
import Lowering.Proofs.Divisions
import Lowering.Proofs.Progressions
import Lowering.Proofs.Descents
import Lowering.Proofs.Rendering
import Lowering.Proofs.Equality
import Lowering.Proofs.SelfContainment
import Lowering.Proofs.Listings
import Lowering.Proofs.Versions
import Lowering.Proofs.Runes
import Lowering.Proofs.Tables
import Lowering.Proofs.Coalescing
