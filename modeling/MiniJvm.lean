import MiniJvm.Assembly.Generate
import MiniJvm.Assembly.Parser
import MiniJvm.Assembly.StackDepth
import MiniJvm.Assembly.Token
import MiniJvm.Cbor
import MiniJvm.ClassFile.Reader
import MiniJvm.Code.Encoding
import MiniJvm.Code.Instruction
import MiniJvm.Command.Address
import MiniJvm.Command.Classpath
import MiniJvm.Command.Options
import MiniJvm.Command.Run
import MiniJvm.Descriptor
import MiniJvm.Digest
import MiniJvm.Files.Tree
import MiniJvm.Image.Codec
import MiniJvm.Log
import MiniJvm.Machine.CallStack
import MiniJvm.Machine.Fault
import MiniJvm.Machine.Frame
import MiniJvm.Machine.Load
import MiniJvm.Machine.Registry
import MiniJvm.Machine.Run
import MiniJvm.Main
import MiniJvm.Number.Double
import MiniJvm.Number.Literal
import MiniJvm.Number.Shortest
import MiniJvm.Pool.Basic
import MiniJvm.Project.Manifest
import MiniJvm.Project.Resolve
import MiniJvm.Proofs.Assembly.CallEffect
import MiniJvm.Proofs.Assembly.Callees
import MiniJvm.Proofs.Assembly.CodeBytes
import MiniJvm.Proofs.Assembly.Cursor
import MiniJvm.Proofs.Assembly.Generate
import MiniJvm.Proofs.Assembly.Grammar
import MiniJvm.Proofs.Assembly.Labels
import MiniJvm.Proofs.Assembly.Parse
import MiniJvm.Proofs.Assembly.Positions
import MiniJvm.Proofs.Assembly.Soundness
import MiniJvm.Proofs.Assembly.Spelling
import MiniJvm.Proofs.Assembly.StackDepth
import MiniJvm.Proofs.Assembly.StackPaths
import MiniJvm.Proofs.Assembly.Tokenization
import MiniJvm.Proofs.Assembly.Translation
import MiniJvm.Proofs.Basic
import MiniJvm.Proofs.Cbor.RoundTrip
import MiniJvm.Proofs.ClassFile.Bounds
import MiniJvm.Proofs.ClassFile.DeclaredSize
import MiniJvm.Proofs.ClassFile.Extent
import MiniJvm.Proofs.ClassFile.Layout
import MiniJvm.Proofs.ClassFile.Reload
import MiniJvm.Proofs.ClassFile.RoundTrip
import MiniJvm.Proofs.Code.Encodable
import MiniJvm.Proofs.Code.RoundTrip
import MiniJvm.Proofs.Code.Walk
import MiniJvm.Proofs.Command.Entry
import MiniJvm.Proofs.Descriptor
import MiniJvm.Proofs.Files.ReadWrite
import MiniJvm.Proofs.Image.Record
import MiniJvm.Proofs.Image.RoundTrip
import MiniJvm.Proofs.Machine.ByteFrame
import MiniJvm.Proofs.Machine.CallStack
import MiniJvm.Proofs.Machine.Evaluation
import MiniJvm.Proofs.Machine.FailedCall
import MiniJvm.Proofs.Machine.FaultPlace
import MiniJvm.Proofs.Machine.Frame
import MiniJvm.Proofs.Machine.LastDefinition
import MiniJvm.Proofs.Machine.Load
import MiniJvm.Proofs.Machine.Normal
import MiniJvm.Proofs.Machine.Ownership
import MiniJvm.Proofs.Machine.Refusal
import MiniJvm.Proofs.Machine.Safety
import MiniJvm.Proofs.Machine.Soundness
import MiniJvm.Proofs.Machine.Step
import MiniJvm.Proofs.Machine.Trace
import MiniJvm.Proofs.Number.Double
import MiniJvm.Proofs.Pool.Growth
import MiniJvm.Proofs.Pool.Interning
import MiniJvm.Proofs.Pool.Meaning
import MiniJvm.Proofs.Pool.Slots
import MiniJvm.Proofs.Project.LoadOrder
import MiniJvm.Proofs.Project.LockFile
import MiniJvm.Proofs.Project.LockText
import MiniJvm.Proofs.Project.OwnDeclarations
import MiniJvm.Proofs.Project.Traversal
import MiniJvm.Proofs.Service.Agreement
import MiniJvm.Proofs.Service.Interleaving
import MiniJvm.Proofs.Service.PoolSafety
import MiniJvm.Proofs.Service.Requests
import MiniJvm.Proofs.Service.Traffic
import MiniJvm.Proofs.Store.Content
import MiniJvm.Proofs.Store.History
import MiniJvm.Proofs.Store.Newest
import MiniJvm.Proofs.Store.RunHistory
import MiniJvm.Service.Execution
import MiniJvm.Service.Workers
import MiniJvm.Store.Basic
import MiniJvm.Store.Location
import MiniJvm.Store.Session
import MiniJvm.Table
import MiniJvm.Text.Bytes
import MiniJvm.Text.Columns
import MiniJvm.Text.Quoted
import MiniJvm.Text.Utf8
import MiniJvm.Toml.Document
import MiniJvm.Toml.Scalar
