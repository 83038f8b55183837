import ContractCalls.Bytes.Address
import ContractCalls.Bytes.BigEndian
import ContractCalls.Bytes.Hex
import ContractCalls.Call.Check
import ContractCalls.Call.Error
import ContractCalls.Call.Interaction
import ContractCalls.Call.Payload
import ContractCalls.Call.Transfer
import ContractCalls.Codec.Decode
import ContractCalls.Codec.Encode
import ContractCalls.Codec.Encoding
import ContractCalls.Codec.Error
import ContractCalls.Codec.Reader
import ContractCalls.Codec.Width
import ContractCalls.Command.Directory
import ContractCalls.Command.Files
import ContractCalls.Command.Listing
import ContractCalls.Command.Options
import ContractCalls.Command.Report
import ContractCalls.Command.Run
import ContractCalls.Command.Settings
import ContractCalls.Command.Spelling
import ContractCalls.Interface.Document
import ContractCalls.Interface.Endpoint
import ContractCalls.Interface.Error
import ContractCalls.Interface.Registry
import ContractCalls.Interface.Resolve
import ContractCalls.Interface.Update
import ContractCalls.Json.Basic
import ContractCalls.Json.Lexical
import ContractCalls.Json.Number
import ContractCalls.Json.Printer
import ContractCalls.Json.Reader
import ContractCalls.Json.Record
import ContractCalls.Json.Shape
import ContractCalls.Json.Skip
import ContractCalls.Main
import ContractCalls.Number.Binary64
import ContractCalls.Number.Shortest
import ContractCalls.Proofs.Bytes.BigEndian
import ContractCalls.Proofs.Bytes.Extension
import ContractCalls.Proofs.Bytes.Hex
import ContractCalls.Proofs.Call.Encodable
import ContractCalls.Proofs.Call.Parts
import ContractCalls.Proofs.Call.Payable
import ContractCalls.Proofs.Call.Payload
import ContractCalls.Proofs.Call.Policy
import ContractCalls.Proofs.Call.Wrapping
import ContractCalls.Proofs.Codec.Arguments
import ContractCalls.Proofs.Codec.Canonical
import ContractCalls.Proofs.Codec.Containers
import ContractCalls.Proofs.Codec.Encoding
import ContractCalls.Proofs.Codec.Form
import ContractCalls.Proofs.Codec.Guard
import ContractCalls.Proofs.Codec.Integer
import ContractCalls.Proofs.Codec.Items
import ContractCalls.Proofs.Codec.Labels
import ContractCalls.Proofs.Codec.Leaf
import ContractCalls.Proofs.Codec.LeastSize
import ContractCalls.Proofs.Codec.Reader
import ContractCalls.Proofs.Codec.RoundTrip
import ContractCalls.Proofs.Codec.Shares
import ContractCalls.Proofs.Codec.TopLevel
import ContractCalls.Proofs.Codec.Truncation
import ContractCalls.Proofs.Codec.Typing
import ContractCalls.Proofs.Codec.Width
import ContractCalls.Proofs.Command.Literal
import ContractCalls.Proofs.Interface.Completeness
import ContractCalls.Proofs.Interface.Depth
import ContractCalls.Proofs.Interface.Document
import ContractCalls.Proofs.Interface.Memo
import ContractCalls.Proofs.Interface.Registry
import ContractCalls.Proofs.Interface.Resolution
import ContractCalls.Proofs.Interface.Settled
import ContractCalls.Proofs.Interface.Simulation
import ContractCalls.Proofs.Interface.Solution
import ContractCalls.Proofs.Interface.Spelled
import ContractCalls.Proofs.Json.Lexical
import ContractCalls.Proofs.Json.Number
import ContractCalls.Proofs.Json.Reading
import ContractCalls.Proofs.Json.Record
import ContractCalls.Proofs.Literal.Leaf
import ContractCalls.Proofs.Literal.Notation
import ContractCalls.Proofs.Literal.Number
import ContractCalls.Proofs.Literal.Reading
import ContractCalls.Proofs.Literal.RoundTrip
import ContractCalls.Proofs.Outcome
import ContractCalls.Proofs.Text.Blank
import ContractCalls.Proofs.Text.Numeral
import ContractCalls.Proofs.Text.Sorted
import ContractCalls.Proofs.Ty.Expression
import ContractCalls.Proofs.Ty.Grammar
import ContractCalls.Proofs.Ty.Json
import ContractCalls.Proofs.Ty.Nodes
import ContractCalls.Proofs.Ty.Resolve
import ContractCalls.Proofs.Ty.Spelling
import ContractCalls.Proofs.Value.Coercion
import ContractCalls.Proofs.Value.Conforms
import ContractCalls.Proofs.Value.HasType
import ContractCalls.Proofs.Value.Nodes
import ContractCalls.Proofs.Value.Places
import ContractCalls.Proofs.Value.Transparency
import ContractCalls.Text.Blank
import ContractCalls.Text.Hexadecimal
import ContractCalls.Text.Join
import ContractCalls.Text.Numeral
import ContractCalls.Text.Quoted
import ContractCalls.Text.Sorted
import ContractCalls.Text.Split
import ContractCalls.Text.Word
import ContractCalls.Toml.Basic
import ContractCalls.Toml.Line
import ContractCalls.Toml.Quoted
import ContractCalls.Toml.Reader
import ContractCalls.Toml.Scalar
import ContractCalls.Toml.Tree
import ContractCalls.Ty.Basic
import ContractCalls.Ty.Expression
import ContractCalls.Ty.Fault
import ContractCalls.Ty.Json
import ContractCalls.Ty.Primitive
import ContractCalls.Ty.Resolve
import ContractCalls.Value.Basic
import ContractCalls.Value.Conforms
import ContractCalls.Value.Fixed
import ContractCalls.Value.Literal
import ContractCalls.Value.LiteralError
